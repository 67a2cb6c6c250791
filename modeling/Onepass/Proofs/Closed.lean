import Mathlib.Data.List.Intervals
import Onepass.Proofs.Lockstep.Program
import Onepass.Proofs.Vocabulary

/-! Compiled programs are closed. Their text assembles. Every label is placed once, every string has
one constant, and a branch goes to a label of the program or to a routine of the library. -/
namespace Onepass

open Assembly (Code Directive Image Layout Line isName)
open Codegen (Builder boundsLabel formatChar formatInt formatString localLabel wrap)
open Machine (Word)

namespace Syntax

mutual

/-- The string literals of an expression in textual order. -/
def Expr.literals : Expr → List Bytes
  | .int _ | .char _ | .variable _ | .emptyArray _ => []
  | .string value => [value]
  | .binary _ left right => left.literals ++ right.literals
  | .negate operand => operand.literals
  | .index left selector => left.literals ++ selector.literals
  | .array first rest => first.literals ++ Expr.allLiterals rest

/-- The string literals of expressions in textual order. -/
def Expr.allLiterals : List Expr → List Bytes
  | [] => []
  | first :: rest => first.literals ++ Expr.allLiterals rest

end

mutual

/-- The string literals of a statement in textual order. -/
def Stmt.literals : Stmt → List Bytes
  | .declare _ value | .assign _ value | .print value => value.literals
  | .store container selector value =>
    container.literals ++ selector.literals ++ value.literals
  | .ifThen condition body => condition.literals ++ body.literals
  | .ifElse condition body other => condition.literals ++ body.literals ++ other.literals
  | .loop condition body => condition.literals ++ body.literals
  | .block body => Stmt.allLiterals body

/-- The string literals of statements in textual order. -/
def Stmt.allLiterals : List Stmt → List Bytes
  | [] => []
  | first :: rest => first.literals ++ Stmt.allLiterals rest

end

end Syntax

open Syntax (Expr Stmt parse)

namespace Generator

variable {platform : Platform}

/-! The pool holds the distinct literals. -/

private theorem strings_pool_eq {g : Generator} {before : List Bytes}
    (held : g.strings = before.eraseDups) (value : Bytes) :
    (g.pool value).2.strings = (before ++ [value]).eraseDups := by
  unfold pool
  split
  · rename_i index found
    obtain ⟨bound, same, _⟩ := List.findIdx?_eq_some_iff_getElem.mp found
    have member : value ∈ before := by
      rw [← List.mem_eraseDups, ← held]
      exact of_decide_eq_true same ▸ List.getElem_mem bound
    simp [List.eraseDups_append, List.removeAll, member, held]
  · rename_i missing
    have new : value ∉ before := by
      rw [← List.mem_eraseDups, ← held]
      intro member
      simpa using List.findIdx?_eq_none_iff.mp missing value member
    simp [List.eraseDups_append, List.eraseDups_cons, List.removeAll, new, held]

mutual

private theorem strings_expression_eq (e : Expr) {g : Generator} {before : List Bytes}
    (held : g.strings = before.eraseDups) :
    (g.expression platform e).2.strings = (before ++ e.literals).eraseDups := by
  match e with
  | .int _ | .char _ | .variable _ | .emptyArray _ => simpa [expression, Expr.literals] using held
  | .string value => exact strings_pool_eq held value
  | .binary _ left right | .index left right =>
    rw [Expr.literals, ← List.append_assoc]
    exact strings_expression_eq right (strings_expression_eq left held)
  | .negate operand => exact strings_expression_eq operand held
  | .array first rest =>
    rw [Expr.literals, ← List.append_assoc]
    exact strings_elements_eq rest (strings_expression_eq first held)

private theorem strings_elements_eq {element : Shape} {position : Nat} (rest : List Expr)
    {g : Generator} {before : List Bytes} (held : g.strings = before.eraseDups) :
    (g.elements platform element position rest).2.strings =
      (before ++ Expr.allLiterals rest).eraseDups := by
  match rest with
  | [] => simpa [elements, Expr.allLiterals] using held
  | first :: others =>
    rw [Expr.allLiterals, ← List.append_assoc]
    exact strings_elements_eq others (strings_expression_eq first held)

end

mutual

private theorem strings_statement_eq (s : Stmt) {g : Generator} {before : List Bytes}
    (held : g.strings = before.eraseDups) :
    (g.statement platform s).2.strings = (before ++ s.literals).eraseDups := by
  match s with
  | .declare _ value | .assign _ value | .print value => exact strings_expression_eq value held
  | .store container selector value =>
    rw [Stmt.literals, ← List.append_assoc, ← List.append_assoc]
    exact strings_expression_eq value
      (strings_expression_eq selector (strings_expression_eq container held))
  | .ifThen condition body =>
    rw [Stmt.literals, ← List.append_assoc]
    exact strings_statement_eq body (g := (g.expression platform condition).2.newLabel.2)
      (strings_expression_eq condition held)
  | .ifElse condition body other =>
    rw [Stmt.literals, ← List.append_assoc, ← List.append_assoc]
    exact strings_statement_eq other (g := (newLabel _).2)
      (strings_statement_eq body (g := (g.expression platform condition).2.newLabel.2)
        (strings_expression_eq condition held))
  | .loop condition body =>
    rw [Stmt.literals, ← List.append_assoc]
    exact strings_statement_eq body
      (strings_expression_eq condition (g := g.newLabel.2.newLabel.2) held)
  | .block body => exact strings_statements_eq body held

/-- The pool holds every distinct literal once, in the order of first use. -/
theorem strings_statements_eq (body : List Stmt) {g : Generator} {before : List Bytes}
    (held : g.strings = before.eraseDups) :
    (g.statements platform body).2.strings = (before ++ Stmt.allLiterals body).eraseDups := by
  match body with
  | [] => simpa [statements, Stmt.allLiterals] using held
  | first :: rest =>
    rw [Stmt.allLiterals, ← List.append_assoc]
    exact strings_statements_eq rest (strings_statement_eq first held)

end

/-! Every label that was made is placed once. -/

/-- The local labels with the numbers from `first` up to `next`. -/
def localLabels (first next : Nat) : List Bytes := (List.Ico first next).map localLabel

private theorem localLabels_self (n : Nat) : localLabels n n = [] := by
  simp [localLabels]

private theorem localLabels_cons {first next : Nat} (below : first + 1 ≤ next) :
    localLabels first next = localLabel first :: localLabels (first + 1) next := by
  rw [localLabels, List.Ico.eq_cons below]
  rfl

private theorem localLabels_append {first middle next : Nat} (one : first ≤ middle)
    (two : middle ≤ next) :
    localLabels first middle ++ localLabels middle next = localLabels first next := by
  rw [localLabels, localLabels, ← List.map_append, List.Ico.append_consecutive one two]
  rfl

/-- Names of every kind, but no places for labels. -/
private def unlabelled : Vocabulary := ⟨fun _ => true, fun _ => true, fun _ => false, fun _ => true⟩

private theorem offers_unlabelled (platform : Platform) (strings labels : Nat) :
    Codegen.Offers unlabelled platform strings labels :=
  ⟨rfl, fun _ _ => rfl, fun _ _ => rfl, fun _ _ => rfl, fun _ _ => rfl⟩

private theorem labels_selection (container selector : Expr) (element : Shape) (g : Generator) :
    (selection (g.expression platform container).1
      ((g.expression platform container).2.expression platform selector).1 element).labels = [] :=
  Assembly.labels_of_isWithin (isWithin_selection (v := unlabelled) (g := g)
    (offers_unlabelled platform ..) (isWithin_expression container g (offers_unlabelled ..))
    (isWithin_expression selector _ (offers_unlabelled ..)) element)

mutual

theorem labels_statement (s : Stmt) (g : Generator) :
    (g.statement platform s).1.labels.Perm
      (localLabels g.nextLabel (g.statement platform s).2.nextLabel) := by
  match s with
  | .declare name value | .assign name value =>
    have store (type : Ty) (slot : Int) : (Codegen.store type slot).labels = [] :=
      Assembly.labels_of_isWithin (Codegen.isWithin_store (v := unlabelled) type slot)
    simp [statement, assignment, Variable.store, store, nextLabel_expression, localLabels_self]
  | .store container selector value =>
    have push : Codegen.pushPointer.labels = [] := rfl
    have pop : (Codegen.popBase "edx").labels = [] := rfl
    have store (type : Ty) : (Codegen.storeAt type "edx" wordSize).labels = [] :=
      Assembly.labels_of_isWithin (Codegen.isWithin_storeAt (v := unlabelled) type wordSize)
    simp [statement, labels_selection, push, pop, store, nextLabel_expression, localLabels_self]
  | .print value =>
    have print (type : Ty) : ((Codegen.print? platform type).getD []).labels = [] :=
      Assembly.labels_of_isWithin (Codegen.isWithin_print? (offers_unlabelled platform 0 0) type)
    simp [statement, print, nextLabel_expression, localLabels_self]
  | .ifThen condition body =>
    have inner := labels_statement body (g.expression platform condition).2.newLabel.2
    have above : _ ≤ (statement platform body _).2.nextLabel :=
      nextLabel_statement body (g.expression platform condition).2.newLabel.2
    have jump (name : Bytes) : (Codegen.jumpIfFalse name).labels = [] := rfl
    have place (name : Bytes) : (Codegen.label name).labels = [name] := rfl
    simp only [newLabel_eq, nextLabel_expression] at inner above
    simp only [statement, newLabel_eq, Assembly.labels_append, labels_expression, jump, place,
      nextLabel_expression, List.nil_append]
    rw [localLabels_cons above]
    exact (List.perm_append_singleton ..).trans (inner.cons _)
  | .ifElse condition body other =>
    have first := labels_statement body (g.expression platform condition).2.newLabel.2
    have second := labels_statement other (newLabel (statement platform body
      (g.expression platform condition).2.newLabel.2).2).2
    have above : _ ≤ (statement platform body _).2.nextLabel :=
      nextLabel_statement body (g.expression platform condition).2.newLabel.2
    have below : _ ≤ (statement platform other _).2.nextLabel :=
      nextLabel_statement other (newLabel (statement platform body
        (g.expression platform condition).2.newLabel.2).2).2
    have test (name : Bytes) : (Codegen.jumpIfFalse name).labels = [] := rfl
    have jump (name : Bytes) : (Codegen.jump name).labels = [] := rfl
    have place (name : Bytes) : (Codegen.label name).labels = [name] := rfl
    simp only [newLabel_eq, nextLabel_expression] at first second above below
    simp only [statement, newLabel_eq, Assembly.labels_append, labels_expression, test, jump, place,
      nextLabel_expression, List.nil_append, List.append_nil]
    rw [← localLabels_append (by omega) (Nat.le_of_succ_le below), localLabels_cons above,
      localLabels_cons below, List.append_assoc]
    exact ((List.perm_append_singleton ..).trans (first.cons _)).append
      ((List.perm_append_singleton ..).trans (second.cons _))
  | .loop condition body =>
    have inner := labels_statement body (g.newLabel.2.newLabel.2.expression platform condition).2
    have above : _ ≤ (statement platform body _).2.nextLabel :=
      nextLabel_statement body (g.newLabel.2.newLabel.2.expression platform condition).2
    have test (name : Bytes) : (Codegen.jumpIfFalse name).labels = [] := rfl
    have jump (name : Bytes) : (Codegen.jump name).labels = [] := rfl
    have place (name : Bytes) : (Codegen.label name).labels = [name] := rfl
    simp only [newLabel_eq, nextLabel_expression] at inner above
    simp only [statement, newLabel_eq, Assembly.labels_append, labels_expression, test, jump, place,
      List.append_nil, List.cons_append, List.nil_append]
    rw [localLabels_cons (by omega), localLabels_cons above]
    exact ((List.perm_append_singleton ..).trans (inner.cons _)).cons _
  | .block body => exact labels_statements body g

/-- Statements place every label that they make, and each of them once. -/
theorem labels_statements (body : List Stmt) (g : Generator) :
    (g.statements platform body).1.labels.Perm
      (localLabels g.nextLabel (g.statements platform body).2.nextLabel) := by
  match body with
  | [] => simp [statements, localLabels_self]
  | first :: rest =>
    have head := labels_statement first g
    have tail := labels_statements rest (g.statement platform first).2
    simp only [statements, Assembly.labels_append]
    rw [← localLabels_append (nextLabel_statement first g) (nextLabel_statements rest _)]
    exact head.append tail

end

end Generator

namespace Assembly

/-- Whether both passes take a directive wherever it stands in the data. -/
def Directive.Fits (d : Directive) : Prop :=
  ∀ (l : Layout) (offset : Word),
    (∃ size, d.size offset = .ok size) ∧ ∃ bytes, l.directiveData d offset = .ok bytes

theorem Image.statement_of_fits {d : Directive} (fits : d.Fits) (l : Layout) (number : Nat)
    (image : Image) : ∃ after, image.statement l number (.directive d) = .ok after := by
  obtain ⟨_, bytes, found⟩ := fits l image.data.size.toUInt32
  simp only [Image.statement, found, ok_bind]
  split
  · exact ⟨_, rfl⟩
  · exact ⟨_, rfl⟩

end Assembly

namespace Generator

variable {platform : Platform} {g : Generator} {code : Code}

/-- The lines of a pooled string. -/
def pooled (value : Bytes) (index : Nat) : Code :=
  [.directive ".align" [.number wordSize], .label (Builder.stringLabel index),
    .directive ".long" [.number (wrap value.length)], .directive ".asciz" [.text value]]

/-- The print formats and the pooled strings. -/
def constants (g : Generator) : Code :=
  [.label formatInt, .directive ".asciz" [.text "%d\n"],
    .label formatChar, .directive ".asciz" [.text "%c\n"],
    .label formatString, .directive ".asciz" [.text "%s\n"]] ++
  g.strings.zipIdx.flatMap fun entry => pooled entry.1 entry.2

/-- What stands before the code of `main` in the text section. -/
def entry (platform : Platform) (g : Generator) : Code :=
  [.label (platform.symbol "main"), .instruction "pushl" [Codegen.ebp],
    .instruction "movl" [Codegen.esp, Codegen.ebp],
    .instruction "subl" [Codegen.constant (wordSize * g.scope.size : Nat), Codegen.esp]]

/-- What stands after the code of `main`, up to the last instruction. -/
def exit (platform : Platform) : Code :=
  [.instruction "movl" [Codegen.constant 0, Codegen.eax], .instruction "leave" [],
    .instruction "ret" [], .label boundsLabel] ++
  if platform.alignsCalls then [.instruction "andl" [Codegen.constant (-16), Codegen.esp]] else []

/-- The last instruction of a program. -/
def abort (platform : Platform) : Line :=
  .instruction "call" [Codegen.destination (platform.symbol "abort")]

/-- The lines of the text section. -/
def main (platform : Platform) (code : Code) (g : Generator) : Code :=
  entry platform g ++ code ++ exit platform ++ [abort platform]

/-- What opens the data section. -/
def opening (platform : Platform) : Code := [⟨[], some (.directive platform.dataSection)⟩]

/-- What stands between the data and the text. -/
def turn (platform : Platform) : Code :=
  [.blank, .directive ".text" [], .directive ".globl" [.symbol (platform.symbol "main")]]

theorem program_eq (platform : Platform) (code : Code) (g : Generator) :
    (g.builder platform code).program =
      opening platform ++ g.constants ++ turn platform ++ g.main platform code := by
  simp [Builder.program, Builder.data, builder, frame, Builder.function, Builder.boundsRoutine,
    opening, constants, turn, main, entry, exit, abort, pooled]

/-- The names of the labels in the text when there are `k` local labels. -/
def textNames (platform : Platform) (k : Nat) : List Bytes :=
  [platform.symbol "main", boundsLabel] ++ (List.range k).map localLabel

/-- The names of the constants when there are `m` pooled strings. -/
def dataNames (m : Nat) : List Bytes :=
  [formatInt, formatChar, formatString] ++ (List.range m).map Builder.stringLabel

/-! The constants. -/

theorem labels_constants (g : Generator) :
    g.constants.labels = dataNames g.strings.length := by
  have pool (strings : List Bytes) (start : Nat) :
      Code.labels ((strings.zipIdx start).flatMap fun entry => pooled entry.1 entry.2) =
        (List.range' start strings.length).map Builder.stringLabel := by
    induction strings generalizing start with
    | nil => rfl
    | cons value rest ih =>
      rw [List.zipIdx_cons, List.flatMap_cons, Assembly.labels_append, ih, List.length_cons,
        List.range'_succ]
      rfl
  rw [constants, Assembly.labels_append, pool, dataNames, List.range_eq_range']
  rfl

/-- A property of code that holds of the constants if it does of the formats and of every pooled
string. -/
private theorem all_constants {check : Line → Bool}
    (formats : ([.label formatInt, .directive ".asciz" [.text "%d\n"],
      .label formatChar, .directive ".asciz" [.text "%c\n"],
      .label formatString, .directive ".asciz" [.text "%s\n"]] : Code).all check = true)
    (strings : ∀ value index, (pooled value index).all check = true) (g : Generator) :
    g.constants.all check = true := by
  rw [constants, List.all_append, formats, List.all_flatMap, Bool.true_and, List.all_eq_true]
  exact fun entry _ => strings entry.1 entry.2

theorem isLegible_constants (g : Generator) : g.constants.isLegible = true := by
  refine all_constants rfl (fun value index => ?_) g
  have align : (Line.directive ".align" [.number wordSize]).isLegible = true := rfl
  have name : (Line.label (Builder.stringLabel index)).isLegible = true := by
    simp [Line.label, Line.isLegible]
  have number (n : Int) (wide : Assembly.isWide n = true) :
      (Line.directive ".long" [.number n]).isLegible = true := by
    have word : Assembly.isDirectiveName ".long" = true := rfl
    simp [Line.directive, Line.isLegible, Assembly.Statement.isLegible, word,
      Assembly.Argument.isLegible, wide]
  have length := number (wrap value.length) (isWide_wrap value.length)
  have contents : (Line.directive ".asciz" [.text value]).isLegible = true := rfl
  simp only [pooled, List.all_cons, List.all_nil, align, name, length, contents, Bool.and_self]

theorem isData_constants (g : Generator) : g.constants.all Line.isData = true :=
  all_constants rfl (fun _ _ => rfl) g

/-- Both passes take every constant. -/
theorem fits_constants (g : Generator) {line : Line} (member : line ∈ g.constants) {d : Directive}
    (found : line.statement = some (.directive d)) : d.Fits := by
  have contents (value : Bytes) : Directive.Fits ⟨".asciz", [.text value]⟩ :=
    fun _ _ => ⟨⟨_, rfl⟩, _, rfl⟩
  have length (n : Int) : Directive.Fits ⟨".long", [.number n]⟩ := fun _ _ => ⟨⟨_, rfl⟩, _, rfl⟩
  have align : Directive.Fits ⟨".align", [.number wordSize]⟩ := fun _ _ => ⟨⟨_, rfl⟩, _, rfl⟩
  rcases List.mem_append.mp member with format | string
  · simp only [List.mem_cons, List.not_mem_nil, or_false] at format
    rcases format with rfl | rfl | rfl | rfl | rfl | rfl <;> cases found <;> exact contents _
  · obtain ⟨⟨value, index⟩, _, inside⟩ := List.mem_flatMap.mp string
    simp only [pooled, List.mem_cons, List.not_mem_nil, or_false] at inside
    rcases inside with rfl | rfl | rfl | rfl
    · cases found
      exact align
    · cases found
    · cases found
      exact length _
    · cases found
      exact contents value

/-! The text. -/

theorem isWithin_main {v : Vocabulary} (body : code.isWithin v = true)
    (placed : ∀ name, v.placed name = true)
    (aborts : v.routine (platform.symbol "abort") = true) (g : Generator) :
    (g.main platform code).isWithin v = true := by
  have label (name : Bytes) (legible : isName name = true) : (Line.label name).isWithin v = true := by
    simp [legible, placed]
  have entry : (g.entry platform).isWithin v = true := by
    have named : isName (platform.symbol "main") = true := Codegen.isName_symbol rfl
    have save : (Line.instruction "pushl" [Codegen.ebp]).isWithin v = true := rfl
    have move : (Line.instruction "movl" [Codegen.esp, Codegen.ebp]).isWithin v = true := rfl
    have reserve (n : Int) :
        (Line.instruction "subl" [Codegen.constant n, Codegen.esp]).isWithin v = true :=
      Assembly.isWithin_instruction (k := .arithmetic .sub) rfl rfl rfl rfl (by simp; rfl) rfl
    simp only [Generator.entry, Assembly.isWithin_cons, Assembly.isWithin_nil,
      label _ named, save, move, reserve, Bool.and_self]
  have exit : (exit platform).isWithin v = true := by
    have zero : Code.isWithin v [.instruction "movl" [Codegen.constant 0, Codegen.eax],
      .instruction "leave" [], .instruction "ret" []] = true := rfl
    have align : (Line.instruction "andl" [Codegen.constant (-16), Codegen.esp]).isWithin v = true :=
      rfl
    have bounds := label boundsLabel rfl
    simp only [Assembly.isWithin_cons, Assembly.isWithin_nil] at zero
    unfold Generator.exit
    split <;> simp_all
  have call : (abort platform).isWithin v = true :=
    Codegen.isWithin_call (Codegen.isName_symbol rfl) aborts
  simp [main, entry, body, exit, call]

theorem labels_main (platform : Platform) (code : Code) (g : Generator) :
    (g.main platform code).labels = platform.symbol "main" :: code.labels ++ [boundsLabel] := by
  have exit : (exit platform).labels = [boundsLabel] := by cases platform <;> rfl
  simp [main, entry, abort, exit]

/-- The library routines that programs call. -/
def routines (platform : Platform) : List Bytes :=
  [Bytes.ofString "printf", Bytes.ofString "malloc", Bytes.ofString "abort"].map platform.symbol

private theorem decimal_injective {a b : Nat}
    (same : Numeral.decimal a = Numeral.decimal b) : a = b := by
  have digits (n : Nat) : Numeral.value? 10 (Numeral.decimal n) = some n := by
    have positive : ¬ (n : Int) < 0 := by omega
    have read : Numeral.value? 10 (Numeral.natural 10 n) = some n :=
      Numeral.value?_natural (by omega) (by omega) n
    simpa [Numeral.decimal, positive] using read
  exact Option.some.inj ((digits a).symm.trans (by rw [same, digits b]))

private theorem head_localLabel (n : Nat) : (localLabel n).head? = some (Bytes.code 'L') := rfl

private theorem head_stringLabel (n : Nat) :
    (Builder.stringLabel n).head? = some (Bytes.code 'S') := rfl

theorem nodup_textNames (platform : Platform) (k : Nat) : (textNames platform k).Nodup := by
  refine List.nodup_append.mpr ⟨by cases platform <;> decide, ?_, fun name fixed other made => ?_⟩
  · exact List.nodup_range.map fun a b same => decimal_injective (List.cons.inj same).2
  · obtain ⟨n, _, rfl⟩ := List.mem_map.mp made
    rintro rfl
    have heads : ∀ name ∈ [platform.symbol "main", boundsLabel],
        name.head? ≠ some (Bytes.code 'L') := by cases platform <;> decide
    exact heads _ fixed (head_localLabel n)

theorem nodup_dataNames (m : Nat) : (dataNames m).Nodup := by
  refine List.nodup_append.mpr ⟨by decide, ?_, fun name fixed other made => ?_⟩
  · exact List.nodup_range.map fun a b same => decimal_injective (List.cons.inj same).2
  · obtain ⟨n, _, rfl⟩ := List.mem_map.mp made
    rintro rfl
    have heads : ∀ name ∈ [formatInt, formatChar, formatString],
        name.head? ≠ some (Bytes.code 'S') := by decide
    exact heads _ fixed (head_stringLabel n)

/-- The first letters tell labels of the text from constants. -/
theorem disjoint_names (platform : Platform) (k m : Nat) :
    (textNames platform k).Disjoint (dataNames m) := by
  have text : ∀ name ∈ textNames platform k,
      name.head? ∉ [some (Bytes.code 'F'), some (Bytes.code 'S')] := by
    intro name member
    have heads : ∀ name ∈ [platform.symbol "main", boundsLabel],
        name.head? ∉ [some (Bytes.code 'F'), some (Bytes.code 'S')] := by cases platform <;> decide
    rcases List.mem_append.mp member with fixed | made
    · exact heads name fixed
    · obtain ⟨n, _, rfl⟩ := List.mem_map.mp made
      rw [head_localLabel]
      decide
  have data : ∀ name ∈ dataNames m,
      name.head? ∈ [some (Bytes.code 'F'), some (Bytes.code 'S')] := by
    intro name member
    have heads : ∀ name ∈ [formatInt, formatChar, formatString],
        name.head? ∈ [some (Bytes.code 'F'), some (Bytes.code 'S')] := by decide
    rcases List.mem_append.mp member with fixed | made
    · exact heads name fixed
    · obtain ⟨n, _, rfl⟩ := List.mem_map.mp made
      rw [head_stringLabel]
      decide
  exact fun name first second => text name first (data name second)

/-- No routine has the name of a label. -/
theorem disjoint_routines (platform : Platform) (k : Nat) :
    (routines platform).Disjoint (textNames platform k) := by
  have heads : ∀ name ∈ routines platform, name.head? ≠ some (Bytes.code 'L') ∧
      name ∉ [platform.symbol "main", boundsLabel] := by
    cases platform <;> decide
  intro name routine label
  rcases List.mem_append.mp label with fixed | made
  · exact (heads name routine).2 fixed
  · obtain ⟨n, _, rfl⟩ := List.mem_map.mp made
    exact (heads _ routine).1 (head_localLabel n)

/-! The two passes over a program. -/

theorem lines_opening (platform : Platform) :
    Layout.lines {} 1 (opening platform) = .ok { current := .data } := by
  cases platform <;> rfl

/-- The first pass places the constants. -/
theorem lines_constants (g : Generator) :
    ∃ data : Layout, Layout.lines { current := .data } 2 g.constants = .ok data ∧
      data.current = .data ∧ data.labels = [] ∧ data.count = 0 ∧
      data.symbols.map Prod.fst = (dataNames g.strings.length).reverse := by
  obtain ⟨data, stored, current, labels, count, symbols⟩ := @Layout.lines_data { current := .data } 2
    g.constants rfl g.isData_constants
    (fun line member d found offset => (g.fits_constants member found {} offset).1)
    (fun name _ => ⟨rfl, rfl⟩) (by rw [labels_constants]; exact nodup_dataNames _)
  rw [labels_constants, List.map_nil, List.append_nil] at symbols
  exact ⟨data, stored, current, labels, count, symbols⟩

theorem lines_turn (platform : Platform) (data : Layout) (number : Nat) :
    data.lines number (turn platform) = .ok { data with current := .text } := by
  have size : data.size + 0 + 0 = data.size := by simp
  have whole : data.lines number (turn platform) =
      .ok { data with current := .text, size := data.size + 0 + 0 } := by
    cases platform <;> rfl
  rw [whole, size]

section

variable (placed : code.labels.Perm (localLabels 0 g.nextLabel))

include placed

theorem labels_main_perm (platform : Platform) :
    (g.main platform code).labels.Perm (textNames platform g.nextLabel) := by
  rw [labels_main, textNames, ← List.Ico.zero_bot]
  exact ((List.perm_append_singleton ..).trans (placed.cons _)).cons _

/-- The first pass succeeds: it places the labels of the text and the constants. -/
theorem layout_program (text : (g.main platform code).all Line.isText = true) :
    ∃ l : Layout, Layout.ofCode ((g.builder platform code).program ++ [.blank]) = .ok l ∧
      l.labels = ((g.main platform code).places 0).reverse ∧
      l.symbols.map Prod.fst = (dataNames g.strings.length).reverse ∧
      l.count = (g.main platform code).instructions := by
  have names := labels_main_perm placed platform
  obtain ⟨data, stored, current, labels, count, symbols⟩ := lines_constants g
  have free : ∀ name ∈ Code.labels (g.main platform code ++ [.blank]),
      Layout.Free { data with current := .text } name := by
    intro name member
    refine ⟨by rw [Layout.label?, labels]; rfl, ?_⟩
    rw [Layout.symbol?, List.lookup_eq_none_iff]
    intro entry known
    have constant : entry.1 ∈ dataNames g.strings.length := by
      rw [← List.mem_reverse, ← symbols]
      exact List.mem_map_of_mem known
    have label : name ∈ textNames platform g.nextLabel :=
      names.mem_iff.mp (by simpa [Line.blank] using member)
    simpa using fun same : name = entry.1 => disjoint_names _ _ _ label (same ▸ constant)
  have distinct : (Code.labels (g.main platform code ++ [.blank])).Nodup := by
    have same : Code.labels (g.main platform code ++ [.blank]) = (g.main platform code).labels := by
      simp [Line.blank]
    rw [same]
    exact names.nodup_iff.mpr (nodup_textNames ..)
  have fine : List.all (g.main platform code ++ [.blank]) Line.isText = true := by
    rw [List.all_append, text]
    rfl
  have last := fun number =>
    @Layout.lines_text { data with current := .text } number _ rfl fine free distinct
  refine ⟨{ data with
    current := .text
    count := data.count + Code.instructions (g.main platform code ++ [.blank])
    labels := (Code.places data.count (g.main platform code ++ [.blank])).reverse ++ data.labels },
    ?_, ?_, symbols, ?_⟩
  · rw [program_eq, List.append_assoc (opening platform ++ _ ++ _)]
    exact Layout.lines_append_eq_ok.mpr ⟨_, Layout.lines_append_eq_ok.mpr ⟨_,
      Layout.lines_append_eq_ok.mpr ⟨_, lines_opening platform, stored⟩, lines_turn platform _ _⟩,
      last _⟩
  · simp only [labels, count, Assembly.places_append]
    exact (List.append_nil _).trans (congrArg List.reverse (List.append_nil _))
  · simp only [count, Assembly.instructions_append]
    exact Nat.zero_add _

end

end Generator

namespace Assembly

/-- Whether nothing in an image is left open when it has `k` local labels and `m` pooled strings. -/
structure Image.IsClosed (image : Image) (platform : Platform) (k m : Nat) : Prop where
  labels : (image.labels.map Prod.fst).Perm (Generator.textNames platform k)
  symbols : (image.symbols.map Prod.fst).Perm (Generator.dataNames m)
  jump : ∀ instr ∈ image.text, ∀ condition,
    instr.mnemonic = .jmp ∨ instr.mnemonic = .jump condition →
    ∃ name index, (name, index) ∈ image.labels ∧ index < image.text.size ∧
      instr.operands = [.target name index]
  call : ∀ instr ∈ image.text, instr.mnemonic = .call →
    ∃ name ∈ Generator.routines platform, instr.operands = [.target name (-1)]
  globals : image.globals = [platform.symbol "main"]

theorem lookup_isSome {α : Type} {entries : List (Bytes × α)} {name : Bytes}
    (member : name ∈ entries.map Prod.fst) : (entries.lookup name).isSome = true := by
  induction entries with
  | nil => cases member
  | cons entry rest ih =>
    by_cases same : name = entry.1
    · simp [List.lookup, same]
    · have differ : (name == entry.1) = false := beq_eq_false_iff_ne.mpr same
      simp only [List.lookup, differ]
      exact ih (by simpa [same] using member)

theorem mem_of_lookup {α : Type} {entries : List (Bytes × α)} {name : Bytes} {value : α}
    (found : entries.lookup name = some value) : (name, value) ∈ entries := by
  obtain ⟨first, rest, rfl, _⟩ := List.lookup_eq_some_iff.mp found
  simp

end Assembly

namespace Generator

/-- The names that a layout knows, with the routines of the library. -/
private def vocabulary (platform : Platform) (l : Layout) : Vocabulary where
  symbol name := (l.symbol? name).isSome
  label name := (l.label? name).isSome
  placed _ := true
  routine name := (routines platform).contains name

/-- Every name is known. -/
private def anything : Vocabulary := ⟨fun _ => true, fun _ => true, fun _ => true, fun _ => true⟩

private theorem known_vocabulary {platform : Platform} {g : Generator} {l : Layout}
    (labels : ∀ name ∈ textNames platform g.nextLabel, (l.label? name).isSome = true)
    (symbols : ∀ name ∈ dataNames g.strings.length, (l.symbol? name).isSome = true) :
    Known platform (vocabulary platform l) g where
  bounds := labels _ (by simp [textNames])
  routine name member := by
    simp only [List.mem_cons, List.not_mem_nil, or_false] at member
    rcases member with rfl | rfl <;> simp [vocabulary, routines]
  format name member := symbols name (List.mem_append_left _ member)
  string index bound := symbols _ (by simp [dataNames]; exact .inr (.inr (.inr ⟨index, bound, rfl⟩)))
  label n bound := labels _ (by simp [textNames]; exact .inr (.inr ⟨n, bound, rfl⟩))

/-- The statements of a program outside its text are directives that both passes take. -/
private theorem fits_program {platform : Platform} {g : Generator} {code : Code} {line : Line}
    (member : line ∈ (g.builder platform code).program ++ [.blank]) :
    line ∈ g.main platform code ∨
      ∀ s, line.statement = some s → ∃ d, s = .directive d ∧ d.Fits := by
  rw [program_eq] at member
  rcases List.mem_append.mp member with member | last
  · rcases List.mem_append.mp member with member | text
    · refine .inr fun s found => ?_
      rcases List.mem_append.mp member with member | turned
      · rcases List.mem_append.mp member with opened | constant
        · obtain rfl := List.mem_singleton.mp opened
          cases found
          exact ⟨_, rfl, fun _ _ => by cases platform <;> exact ⟨⟨_, rfl⟩, _, rfl⟩⟩
        · cases s with
          | directive d => exact ⟨d, rfl, g.fits_constants constant found⟩
          | instruction i =>
            have data := List.all_eq_true.mp g.isData_constants line constant
            obtain ⟨labels, _ | ⟨_ | _⟩⟩ := line <;> cases found
            cases data
      · simp only [turn, List.mem_cons, List.not_mem_nil, or_false] at turned
        rcases turned with rfl | rfl | rfl <;> cases found <;>
          exact ⟨_, rfl, fun _ _ => ⟨⟨_, rfl⟩, _, rfl⟩⟩
    · exact .inl text
  · obtain rfl := List.mem_singleton.mp last
    exact .inr fun s found => by cases found

private theorem isLegible_program {platform : Platform} {g : Generator} {code : Code}
    (text : (g.main platform code).isLegible = true) :
    (g.builder platform code).program.all Line.isLegible = true := by
  have opened : (opening platform).isLegible = true := by cases platform <;> rfl
  have turned : (turn platform).isLegible = true := by cases platform <;> rfl
  have constants := g.isLegible_constants
  unfold Code.isLegible at *
  rw [program_eq, List.all_append, List.all_append, List.all_append, opened, constants, turned, text]
  rfl

private theorem isWithin_program (platform : Platform) (tree : List Stmt) :
    ((program platform tree).2.main platform (program platform tree).1).isWithin anything = true := by
  have body : (program platform tree).1.isWithin anything = true :=
    isWithin_statements (fun _ => rfl) tree {}
      ⟨rfl, fun _ _ => rfl, fun _ _ => rfl, fun _ _ => rfl, fun _ _ => rfl⟩
  exact isWithin_main body (fun _ => rfl) rfl _

theorem isText_program (platform : Platform) (tree : List Stmt) :
    ((program platform tree).2.main platform (program platform tree).1).all Line.isText = true :=
  Assembly.isText_of_isWithin (isWithin_program platform tree)

/-- The assembler reads the lines of a program back. -/
theorem read_text (platform : Platform) (tree : List Stmt) :
    Assembly.read (Builder.text ((program platform tree).2.builder platform
        (program platform tree).1)) =
      .ok (((program platform tree).2.builder platform (program platform tree).1).program ++
        [.blank]) :=
  Assembly.read_print (isLegible_program
    (Assembly.isLegible_of_isWithin (isWithin_program platform tree)))

private theorem globals_program {platform : Platform} {g : Generator} {code : Code}
    (text : (g.main platform code).all Line.isText = true) :
    List.flatMap Line.globals ((g.builder platform code).program ++ [.blank]) =
      [platform.symbol "main"] := by
  have opened : (opening platform).flatMap Line.globals = [] := by cases platform <;> rfl
  have turned : (turn platform).flatMap Line.globals = [platform.symbol "main"] := by
    cases platform <;> rfl
  have constants : g.constants.flatMap Line.globals = [] := by
    refine List.flatMap_eq_nil_iff.mpr fun line member => ?_
    have data := List.all_eq_true.mp g.isData_constants line member
    obtain ⟨labels, _ | ⟨d | _⟩⟩ := line
    · rfl
    · simp only [Line.isData, Bool.and_eq_true, Bool.or_eq_true, beq_iff_eq] at data
      rcases data.2 with (kind | kind) | kind <;> simp [Line.globals, kind]
    · rfl
  have last : (g.main platform code).flatMap Line.globals = [] := by
    refine List.flatMap_eq_nil_iff.mpr fun line member => ?_
    have plain := List.all_eq_true.mp text line member
    obtain ⟨labels, _ | ⟨_ | _⟩⟩ := line
    · rfl
    · cases plain
    · rfl
  rw [program_eq, List.flatMap_append, List.flatMap_append, List.flatMap_append,
    List.flatMap_append, opened, turned, constants, last]
  rfl

/-- A label of the text stands before its last instruction. -/
private theorem index_of_places_main {platform : Platform} {g : Generator} {code : Code}
    {name : Bytes} {index : Nat} (member : (name, index) ∈ (g.main platform code).places 0) :
    index < (g.main platform code).instructions := by
  rw [main, Assembly.places_append] at member
  have front : (name, index) ∈ (entry platform g ++ code ++ exit platform).places 0 := by
    simpa [abort, Line.instruction, Code.places] using member
  have bound := Assembly.index_of_places front
  rw [main, Assembly.instructions_append, abort, Assembly.instructions_instruction]
  omega

/-- The text of a program assembles, and nothing in its image is left open. -/
theorem assemble_text {platform : Platform} {g : Generator} {code : Code}
    (placed : code.labels.Perm (localLabels 0 g.nextLabel))
    (within : ∀ v : Vocabulary, (∀ name, v.placed name = true) → Known platform v g →
      code.isWithin v = true) :
    ∃ image, Assembly.assemble (Builder.text (g.builder platform code)) = .ok image ∧
      image.IsClosed platform g.nextLabel g.strings.length := by
  have names := labels_main_perm placed platform
  have loose : (g.main platform code).isWithin anything = true :=
    isWithin_main (within anything (fun _ => rfl)
      ⟨rfl, fun _ _ => rfl, fun _ _ => rfl, fun _ _ => rfl, fun _ _ => rfl⟩) (fun _ => rfl) rfl g
  have text := Assembly.isText_of_isWithin loose
  obtain ⟨l, first, labels, symbols, count⟩ := layout_program placed text
  have labelNames : l.labels.map Prod.fst = (g.main platform code).labels.reverse := by
    rw [labels, List.map_reverse, Assembly.map_fst_places]
  have known : Known platform (vocabulary platform l) g := known_vocabulary
    (fun name member => Assembly.lookup_isSome (by
      rw [labelNames, List.mem_reverse]
      exact names.mem_iff.mpr member))
    (fun name member => Assembly.lookup_isSome (by
      rw [symbols, List.mem_reverse]
      exact member))
  have closed : (g.main platform code).isWithin (vocabulary platform l) = true :=
    isWithin_main (within _ (fun _ => rfl) known) (fun _ => rfl)
      (by cases platform <;> rfl) g
  have outside : ∀ name, (routines platform).contains name = true → l.label? name = none := by
    intro name member
    cases found : l.label? name with
    | none => rfl
    | some index =>
      have label : name ∈ textNames platform g.nextLabel := by
        rw [← names.mem_iff, ← List.mem_reverse, ← labelNames]
        exact List.mem_map_of_mem (Assembly.mem_of_lookup found)
      exact absurd label (fun label => disjoint_routines _ _ (by simpa using member) label)
  have decoded : ∀ line ∈ g.main platform code, ∀ i, line.statement = some (.instruction i) →
      ∀ number, ∃ instr, l.instruction number i = .ok instr ∧
        Layout.Decoded l (fun name => (routines platform).contains name) instr := by
    intro line member i found number
    have fine := Assembly.isClosed_of_isWithin closed member
    rw [Line.isClosed, found] at fine
    exact Layout.instruction_of_isClosed outside fine
  obtain ⟨image, second⟩ := @Image.lines_of_each l { symbols := l.symbols, labels := l.labels } 1
    ((g.builder platform code).program ++ [.blank]) fun line member s found image number => by
      cases s with
      | directive d =>
        rcases fits_program member with inside | fits
        · have plain := List.all_eq_true.mp text line inside
          obtain ⟨_, _ | ⟨_ | _⟩⟩ := line <;> cases found
          cases plain
        · obtain ⟨_, same, fine⟩ := fits _ found
          cases same
          exact Image.statement_of_fits fine l number image
      | instruction i =>
        rcases fits_program member with inside | fits
        · obtain ⟨instr, known, _⟩ := decoded line inside i found number
          exact ⟨_, by simp only [Image.statement, known]; rfl⟩
        · obtain ⟨_, same, _⟩ := fits _ found
          cases same
  have added := Image.added_lines second
  have size : image.text.size = (g.main platform code).instructions := by
    have agree : Assembly.Agree {} { symbols := l.symbols, labels := l.labels } := ⟨rfl, rfl⟩
    rw [← count]
    exact (agree.lines first second).count.symm
  -- Every instruction of the image comes from a line of the text.
  have origin : ∀ instr ∈ image.text,
      Layout.Decoded l (fun name => (routines platform).contains name) instr := by
    intro instr member
    rcases added.2.2.2 instr member with old | ⟨line, inside, i, number, found, known⟩
    · cases old.val
    · rcases fits_program inside with text | fits
      · obtain ⟨other, same, fine⟩ := decoded line text i found number
        rw [known, Except.ok.injEq] at same
        exact same ▸ fine
      · obtain ⟨_, same, _⟩ := fits _ found
        cases same
  refine ⟨image, ?_, ?_, ?_, ?_, ?_, ?_⟩
  · simp only [Assembly.assemble, Builder.text,
      Assembly.read_print (isLegible_program (Assembly.isLegible_of_isWithin loose)),
      Image.ofCode, first]
    exact second
  · rw [added.1, labelNames]
    exact (List.reverse_perm _).trans names
  · rw [added.2.1, symbols]
    exact List.reverse_perm _
  · intro instr member condition jump
    obtain ⟨name, index, found, operands⟩ := (origin instr member).jump condition jump
    have there := Assembly.mem_of_lookup found
    refine ⟨name, index, added.1 ▸ there, ?_, operands⟩
    rw [labels, List.mem_reverse] at there
    exact size ▸ index_of_places_main there
  · intro instr member call
    obtain ⟨name, routine, operands⟩ := (origin instr member).call call
    exact ⟨name, by simpa using routine, operands⟩
  · rw [added.2.2.1, globals_program text]
    exact List.nil_append _

end Generator

namespace Compiler

/-- Compiled programs are closed. The text of a program assembles; the image has the labels that
were made and the constants of the distinct string literals; every jump goes to an instruction by
its label; only routines of the library are called; and `main` is what the program exports. -/
theorem compile_closed (source : Source) (platform : Platform) (text : Bytes)
    (compiled : compile source platform = .ok text) :
    ∃ tree image, parse source = .ok tree ∧ Assembly.assemble text = .ok image ∧
      image.IsClosed platform (run source platform).builder.nextLabel
        (Stmt.allLiterals tree).eraseDups.length := by
  obtain ⟨tree, parsed, _, outcome, rfl⟩ := accepted_of_compile compiled
  have pool : (Generator.program platform tree).2.strings =
      ([] ++ Stmt.allLiterals tree).eraseDups :=
    Generator.strings_statements_eq tree (g := {}) rfl
  have placed : (Generator.program platform tree).1.labels.Perm
      (Generator.localLabels 0 (Generator.program platform tree).2.nextLabel) :=
    Generator.labels_statements tree {}
  obtain ⟨image, assembled, closed⟩ := Generator.assemble_text placed
    fun v places known => Generator.isWithin_statements (fun n => places _) tree {} known
  refine ⟨tree, image, parsed, assembled, ?_⟩
  rw [outcome]
  rw [pool] at closed
  exact closed

/-- A program with nested branches in a loop and a string that is used twice. -/
private def branches : Source :=
  ⟨[], "s = \"ab\" i = 0 while i < 2 \x7b if s[i] == 'a' print \"ab\" else print s i = i + 1 \x7d"⟩

theorem compile_closed_branches :
    ∃ text tree image, compile branches .windows = .ok text ∧ parse branches = .ok tree ∧
      Assembly.assemble text = .ok image ∧
      image.IsClosed .windows 4 (Stmt.allLiterals tree).eraseDups.length := by
  have accepted : (compile branches .windows).isOk = true := by decide +kernel
  have labels : (run branches .windows).builder.nextLabel = 4 := by decide +kernel
  cases compiled : compile branches .windows with
  | error _ =>
    rw [compiled] at accepted
    cases accepted
  | ok text =>
    obtain ⟨tree, image, parsed, assembled, closed⟩ := compile_closed _ _ text compiled
    exact ⟨text, tree, image, rfl, parsed, assembled, labels ▸ closed⟩

end Compiler

end Onepass
