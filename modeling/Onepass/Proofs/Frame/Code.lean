import Onepass.Proofs.Generator

/-! How code uses the frame. Every fragment but the loads and stores of variables leaves it alone,
loads only read it, and a store of a variable is one line that writes to its slot. -/
namespace Onepass

namespace Assembly

/-- The operands of the instruction on a line. -/
def Line.operands (line : Line) : List Operand :=
  match line.statement with
  | some (.instruction instruction) => instruction.operands
  | _ => []

/-- Whether an operand is `d(%ebp)` for some `d`. -/
def Operand.isLocal : Operand → Bool
  | .based _ base => base == Bytes.ofString "ebp"
  | _ => false

/-- Whether a line writes to the frame: instructions write to their last operand. -/
def Line.isFrameStore (line : Line) : Bool := line.operands.getLast?.any Operand.isLocal

/-- Whether no operand of the code lies in the frame. -/
def Code.isFrameless (code : Code) : Bool :=
  code.all fun line => line.operands.all fun operand => !operand.isLocal

/-- Whether a line uses the slots of variables only. -/
def Line.Addresses (scope : Scope Ty) (line : Line) : Prop :=
  ∀ operand ∈ line.operands, operand.isLocal = true →
    ∃ v ∈ scope.entries, operand = Codegen.slotOperand v.slot

/-- Whether code reads variables but writes none. -/
def Code.Reads (scope : Scope Ty) (code : Code) : Prop :=
  ∀ line ∈ code, line.isFrameStore = false ∧ line.Addresses scope

/-- Whether the lines of code that write to the frame are the stores of variables with the given
names, in this order. -/
structure Code.Stores (scope : Scope Ty) (names : List Bytes) (code : Code) : Prop where
  stores : List.Forall₂ (fun name line => ∃ v ∈ scope.entries, v.name = name ∧ v.store = [line])
    names (code.filter Line.isFrameStore)
  addresses : ∀ line ∈ code, line.Addresses scope

variable {scope later : Scope Ty} {names others : List Bytes} {code more : Code}

theorem Line.Addresses.mono {line : Line} (addresses : line.Addresses scope)
    (extends_ : scope.entries ⊆ later.entries) : line.Addresses later := by
  intro operand member here
  obtain ⟨v, known, same⟩ := addresses operand member here
  exact ⟨v, extends_ known, same⟩

theorem Code.isFrameless_append :
    Code.isFrameless (code ++ more) = (code.isFrameless && more.isFrameless) :=
  List.all_append

theorem Code.isFrameless.reads (free : code.isFrameless = true) (scope : Scope Ty) :
    code.Reads scope := by
  intro line member
  have none : ∀ operand ∈ line.operands, operand.isLocal = false := by
    simpa using List.all_eq_true.mp (List.all_eq_true.mp free line member)
  constructor
  · rw [Line.isFrameStore]
    cases last : line.operands.getLast? with
    | none => rfl
    | some operand => exact none operand (List.mem_of_getLast? last)
  · intro operand inside here
    rw [none operand inside] at here
    cases here

namespace Code.Reads

theorem append (first : code.Reads scope) (second : more.Reads scope) :
    Code.Reads scope (code ++ more) := by
  intro line member
  rcases List.mem_append.mp member with inside | inside
  · exact first line inside
  · exact second line inside

theorem mono (reads : code.Reads scope) (extends_ : scope.entries ⊆ later.entries) :
    code.Reads later :=
  fun line member => ⟨(reads line member).1, (reads line member).2.mono extends_⟩

theorem filter_eq_nil (reads : code.Reads scope) : code.filter Line.isFrameStore = [] := by
  rw [List.filter_eq_nil_iff]
  intro line member
  rw [(reads line member).1]
  exact Bool.false_ne_true

theorem stores (reads : code.Reads scope) : code.Stores scope [] := by
  refine ⟨?_, fun line member => (reads line member).2⟩
  rw [reads.filter_eq_nil]
  exact .nil

end Code.Reads

namespace Code.Stores

theorem append (first : code.Stores scope names) (second : more.Stores scope others) :
    Code.Stores scope (names ++ others) (code ++ more) := by
  refine ⟨?_, fun line member => ?_⟩
  · rw [List.filter_append]
    exact List.rel_append first.stores second.stores
  · rcases List.mem_append.mp member with inside | inside
    · exact first.addresses line inside
    · exact second.addresses line inside

theorem append_reads (first : code.Stores scope names) (second : more.Reads scope) :
    Code.Stores scope names (code ++ more) := by
  simpa using first.append second.stores

theorem mono (holds : code.Stores scope names) (extends_ : scope.entries ⊆ later.entries) :
    code.Stores later names := by
  refine ⟨holds.stores.imp ?_, fun line member => (holds.addresses line member).mono extends_⟩
  rintro name line ⟨v, known, rest⟩
  exact ⟨v, extends_ known, rest⟩

end Code.Stores

end Assembly

namespace Variable

open Assembly (Code Line)

variable {scope : Scope Ty} {v : Variable Ty} (known : v ∈ scope.entries)

/-- The line that stores a value to a variable. -/
theorem store_eq (v : Variable Ty) : v.store = [.instruction "movl"
    [if v.type.isHeap then Codegen.esi else Codegen.eax, Codegen.slotOperand v.slot]] := by
  unfold store Codegen.store
  split <;> rfl

theorem filter_store (v : Variable Ty) : v.store.filter Line.isFrameStore = v.store := by
  rw [v.store_eq]
  rfl

include known

theorem reads_load : v.load.Reads scope := by
  have line (register : Bytes) : Code.Reads scope
      [.instruction "movl" [Codegen.slotOperand v.slot, .register register]] := by
    intro line member
    obtain rfl := List.mem_singleton.mp member
    refine ⟨rfl, fun operand inside here => ?_⟩
    simp only [Line.operands, Line.instruction, List.mem_cons, List.not_mem_nil, or_false] at inside
    rcases inside with rfl | rfl
    · exact ⟨v, known, rfl⟩
    · cases here
  unfold load Codegen.load
  split
  · exact line "esi"
  · exact line "eax"

theorem stores_store : v.store.Stores scope [v.name] := by
  refine ⟨?_, fun line member => ?_⟩
  · rw [filter_store, store_eq]
    exact .cons ⟨v, known, rfl, v.store_eq⟩ .nil
  · rw [store_eq] at member
    obtain rfl := List.mem_singleton.mp member
    intro operand inside here
    simp only [Line.operands, Line.instruction, List.mem_cons, List.not_mem_nil, or_false] at inside
    rcases inside with rfl | rfl
    · split at here <;> cases here
    · exact ⟨v, known, rfl⟩

end Variable

namespace Codegen

open Assembly (Code)

variable {platform : Platform}

theorem isFrameless_push (type : Ty) : (push type).isFrameless = true := by
  unfold push
  split <;> rfl

theorem isFrameless_loadAt (type : Ty) (offset : Int) : (loadAt type offset).isFrameless = true := by
  rcases type with ⟨_ | _ | _ | _ | _, _⟩ <;> rfl

/-- Elements are stored past a register that holds their address. -/
theorem isFrameless_storeAt (type : Ty) (offset : Int) :
    (storeAt type "edx" offset).isFrameless = true := by
  rcases type with ⟨_ | _ | _ | _ | _, _⟩ <;> rfl

theorem isFrameless_operator (operator : Operator) : (Codegen.operator operator).isFrameless = true := by
  rcases operator with _ | _ | _ | _ | comparison
  · rfl
  · rfl
  · rfl
  · rfl
  · cases comparison <;> rfl

theorem isFrameless_operation? {type : Ty} {operation : Operation} {code : Code}
    (supported : operation? type operation = some code) : code.isFrameless = true := by
  unfold operation? at supported
  split at supported
  · obtain rfl := Option.some.inj supported
    exact isFrameless_operator _
  · obtain rfl := Option.some.inj supported
    rfl
  · obtain rfl := Option.some.inj supported
    exact isFrameless_operator _
  · cases supported

theorem isFrameless_scaleIndex (size : Int) : (scaleIndex size).isFrameless = true := by
  unfold scaleIndex
  split
  · rfl
  · split <;> rfl

theorem isFrameless_alignCall (words : Nat) : (alignCall platform words).isFrameless = true := by
  unfold alignCall
  split
  · split <;> rfl
  · rfl

theorem isFrameless_callRoutine (name : Bytes) (words : Nat) :
    (callRoutine platform name words).isFrameless = true := by
  unfold callRoutine
  split <;> rfl

theorem isFrameless_allocate (bytes : Int) : (allocate platform bytes).isFrameless = true := by
  simp only [allocate, Code.isFrameless_append, isFrameless_alignCall, isFrameless_callRoutine]
  rfl

theorem isFrameless_printFormat (format : Bytes) :
    (printFormat platform format).isFrameless = true := by
  simp only [printFormat, Code.isFrameless_append, isFrameless_alignCall, isFrameless_callRoutine]
  rfl

theorem isFrameless_print? {type : Ty} {code : Code} (printable : print? platform type = some code) :
    code.isFrameless = true := by
  unfold print? at printable
  split at printable
  · obtain rfl := Option.some.inj printable
    exact isFrameless_printFormat _
  · obtain rfl := Option.some.inj printable
    exact isFrameless_printFormat _
  · obtain rfl := Option.some.inj printable
    exact isFrameless_printFormat _
  · cases printable

theorem isFrameless_jumpIfFalse (label : Bytes) : (jumpIfFalse label).isFrameless = true := rfl

theorem isFrameless_jump (label : Bytes) : (jump label).isFrameless = true := rfl

theorem isFrameless_label (name : Bytes) : (Codegen.label name).isFrameless = true := rfl

end Codegen

namespace Generator

open Assembly (Code)
open Syntax (Expr Stmt)

private theorem reads_selection {scope : Scope Ty} {container selector : Code}
    (first : container.Reads scope) (second : selector.Reads scope) (element : Shape) :
    (selection container selector element).Reads scope := by
  have check : Code.Reads scope (Codegen.boundsCheck ++ Codegen.scaleIndex element.size ++
      Codegen.addIndex) := by
    apply Code.isFrameless.reads
    simp only [Code.isFrameless_append, Codegen.isFrameless_scaleIndex]
    rfl
  have push : Codegen.pushPointer.Reads scope := Code.isFrameless.reads rfl scope
  have pop : Codegen.popPointer.Reads scope := Code.isFrameless.reads rfl scope
  have whole := (((first.append push).append second).append pop).append check
  simpa only [selection, List.append_assoc] using whole

private theorem isFrameless_storeElement (element : Shape) (position : Nat) :
    (storeElement element position).isFrameless = true := by
  rw [storeElement, Code.isFrameless_append, Codegen.isFrameless_storeAt]
  rfl

private theorem isFrameless_allocation (platform : Platform) (element : Shape) (count : Nat) :
    (allocation platform element count).isFrameless = true := by
  rw [allocation, Code.isFrameless_append, Codegen.isFrameless_allocate]
  rfl

private theorem newLabel_scope (g : Generator) : g.newLabel.2.scope = g.scope := rfl

mutual

/-- The code of an expression writes no variable. -/
theorem reads_expression (platform : Platform) (e : Expr) (g : Generator) :
    (g.expression platform e).1.Reads g.scope := by
  match e with
  | .int _ | .char _ | .string _ => exact Code.isFrameless.reads rfl _
  | .variable name =>
    simp only [expression]
    cases found : g.scope.find? name with
    | none => exact Code.isFrameless.reads rfl _
    | some v => exact Variable.reads_load (List.mem_of_find?_eq_some found)
  | .binary operator left right =>
    have second := reads_expression platform right (g.expression platform left).2
    rw [expression_scope] at second
    have push : Codegen.pushScalar.Reads g.scope := Code.isFrameless.reads rfl _
    exact (((reads_expression platform left g).append push).append second).append
      (Code.isFrameless.reads (Codegen.isFrameless_operator operator) _)
  | .negate operand => exact (reads_expression platform operand g).append (Code.isFrameless.reads rfl _)
  | .index left selector =>
    have second := reads_expression platform selector (g.expression platform left).2
    rw [expression_scope] at second
    exact (reads_selection (reads_expression platform left g) second _).append
      (Code.isFrameless.reads (Codegen.isFrameless_loadAt _ _) _)
  | .array first rest =>
    have others := reads_elements platform (g.shapeOf first) 1 rest (g.expression platform first).2
    rw [expression_scope] at others
    have push : Codegen.pushPointer.Reads g.scope := Code.isFrameless.reads rfl _
    have allocates : (allocation platform (g.shapeOf first) (rest.length + 1)).Reads g.scope :=
      Code.isFrameless.reads (isFrameless_allocation platform _ _) _
    have head := (reads_expression platform first g).append
      (Code.isFrameless.reads (isFrameless_storeElement (g.shapeOf first) 0) _)
    exact ((allocates.append push).append (head.append others)).append
      (Code.isFrameless.reads rfl _)
  | .emptyArray element => exact Code.isFrameless.reads (isFrameless_allocation platform _ _) _

theorem reads_elements (platform : Platform) (element : Shape) (position : Nat) (rest : List Expr)
    (g : Generator) :
    (elements platform element position rest g).1.Reads g.scope := by
  match rest with
  | [] => exact Code.isFrameless.reads rfl _
  | first :: others =>
    have tail := reads_elements platform element (position + 1) others (g.expression platform first).2
    rw [expression_scope] at tail
    exact ((reads_expression platform first g).append
      (Code.isFrameless.reads (isFrameless_storeElement element position) _)).append tail

end

/-- An assignment writes its variable. -/
theorem stores_assignment (name : Bytes) (shape : Shape) (g : Generator) :
    (g.assignment name shape).1.Stores (g.assignment name shape).2.scope [name] ∧
      g.scope.entries ⊆ (g.assignment name shape).2.scope.entries := by
  simp only [assignment, Scope.add]
  cases found : g.scope.find? name with
  | some v =>
    have same : v.name = name := by simpa using List.find?_some found
    exact ⟨same ▸ Variable.stores_store (List.mem_of_find?_eq_some found), fun _ old => old⟩
  | none =>
    exact ⟨Variable.stores_store (List.mem_append_right _ (List.mem_singleton_self _)),
      List.subset_append_left _ _⟩

mutual

/-- The code of a statement writes the variables that it assigns, in textual order. -/
theorem stores_statement (platform : Platform) (s : Stmt) (g : Generator) :
    (g.statement platform s).1.Stores (g.statement platform s).2.scope s.assignments ∧
      g.scope.entries ⊆ (g.statement platform s).2.scope.entries := by
  match s with
  | .declare name value | .assign name value =>
    obtain ⟨stores, extends_⟩ := stores_assignment name (g.shapeOf value) (g.expression platform value).2
    rw [expression_scope] at extends_
    exact ⟨((reads_expression platform value g).mono extends_).stores.append stores, extends_⟩
  | .store container selector value =>
    have same : (g.statement platform (.store container selector value)).2.scope = g.scope := by
      simp only [statement, expression_scope]
    have second := reads_expression platform selector (g.expression platform container).2
    have third := reads_expression platform value
      ((g.expression platform container).2.expression platform selector).2
    rw [expression_scope] at second
    rw [expression_scope, expression_scope] at third
    have element := reads_selection (reads_expression platform container g) second (g.elementOf container)
    have push : Codegen.pushPointer.Reads g.scope := Code.isFrameless.reads rfl _
    have pop : (Codegen.popBase "edx").Reads g.scope := Code.isFrameless.reads rfl _
    rw [same]
    exact ⟨((((element.append push).append third).append pop).append
      (Code.isFrameless.reads (Codegen.isFrameless_storeAt _ _) _)).stores, fun _ old => old⟩
  | .print value =>
    have same : (g.statement platform (.print value)).2.scope = g.scope := by
      simp only [statement, expression_scope]
    have prints :
        ((Codegen.print? platform (.ofShape (g.shapeOf value))).getD []).Reads g.scope := by
      cases found : Codegen.print? platform (.ofShape (g.shapeOf value)) with
      | none => exact Code.isFrameless.reads rfl _
      | some code => exact Code.isFrameless.reads (Codegen.isFrameless_print? found) _
    rw [same]
    exact ⟨((reads_expression platform value g).append prints).stores, fun _ old => old⟩
  | .ifThen condition body =>
    obtain ⟨inner, extends_⟩ := stores_statement platform body
      (g.expression platform condition).2.newLabel.2
    rw [newLabel_scope, expression_scope] at extends_
    have test (label : Bytes) := ((reads_expression platform condition g).mono extends_).append
      (Code.isFrameless.reads (Codegen.isFrameless_jumpIfFalse label) _)
    exact ⟨((test _).stores.append inner).append_reads
      (Code.isFrameless.reads (Codegen.isFrameless_label _) _), extends_⟩
  | .ifElse condition body alternative =>
    obtain ⟨one, first⟩ := stores_statement platform body
      (g.expression platform condition).2.newLabel.2
    obtain ⟨two, second⟩ := stores_statement platform alternative
      ((g.expression platform condition).2.newLabel.2.statement platform body).2.newLabel.2
    rw [newLabel_scope, expression_scope] at first
    rw [newLabel_scope] at second
    have extends_ := List.Subset.trans first second
    have test (label : Bytes) := ((reads_expression platform condition g).mono extends_).append
      (Code.isFrameless.reads (Codegen.isFrameless_jumpIfFalse label) _)
    have branch (other finish : Bytes) := (((test other).stores.append (one.mono second)).append_reads
      (Code.isFrameless.reads (Codegen.isFrameless_jump finish) _)).append_reads
      (Code.isFrameless.reads (Codegen.isFrameless_label other) _)
    exact ⟨((branch _ _).append two).append_reads
      (Code.isFrameless.reads (Codegen.isFrameless_label _) _), extends_⟩
  | .loop condition body =>
    obtain ⟨inner, extends_⟩ := stores_statement platform body
      (g.newLabel.2.newLabel.2.expression platform condition).2
    rw [expression_scope, newLabel_scope, newLabel_scope] at extends_
    have again := Code.isFrameless.reads (Codegen.isFrameless_label g.newLabel.1)
      (g.statement platform (.loop condition body)).2.scope
    have value := (reads_expression platform condition g.newLabel.2.newLabel.2).mono extends_
    have test (label : Bytes) := (again.append value).append
      (Code.isFrameless.reads (Codegen.isFrameless_jumpIfFalse label) _)
    exact ⟨(((test _).stores.append inner).append_reads
      (Code.isFrameless.reads (Codegen.isFrameless_jump _) _)).append_reads
      (Code.isFrameless.reads (Codegen.isFrameless_label _) _), extends_⟩
  | .block body => exact stores_statements platform body g

theorem stores_statements (platform : Platform) (body : List Stmt) (g : Generator) :
    (g.statements platform body).1.Stores (g.statements platform body).2.scope
        (Stmt.allAssignments body) ∧
      g.scope.entries ⊆ (g.statements platform body).2.scope.entries := by
  match body with
  | [] => exact ⟨(Code.isFrameless.reads rfl _).stores, fun _ old => old⟩
  | first :: rest =>
    obtain ⟨head, middle⟩ := stores_statement platform first g
    obtain ⟨tail, last⟩ := stores_statements platform rest (g.statement platform first).2
    exact ⟨(head.mono last).append tail, fun _ old => last (middle old)⟩

end

end Generator

end Onepass
