import Onepass.Proofs.Assembly.Passes

/-! When code assembles. The first pass succeeds on code whose labels are new and differ from each
other; in the text section they then stand for the indices of the instructions after them. The
second pass succeeds on code whose names the layout knows, and every instruction of the image comes
from a line of the code. -/
namespace Onepass.Assembly

open Onepass.Machine (Instr Mnemonic Word isBranch)

/-- The labels that code places, in order. -/
def Code.labels (code : Code) : List Bytes := code.flatMap Line.labels

/-- The labels of code with the indices they stand for in the text section, where the code starts at
an index. -/
def Code.places : (index : Nat) → Code → List (Bytes × Nat)
  | _, [] => []
  | index, ⟨labels, some (.instruction _)⟩ :: rest =>
    labels.map (·, index) ++ Code.places (index + 1) rest
  | index, ⟨labels, _⟩ :: rest => labels.map (·, index) ++ Code.places index rest

@[simp] theorem labels_nil : Code.labels [] = [] := rfl

@[simp] theorem labels_cons (line : Line) (rest : Code) :
    Code.labels (line :: rest) = line.labels ++ Code.labels rest := rfl

@[simp] theorem labels_append (first second : Code) :
    Code.labels (first ++ second) = first.labels ++ second.labels :=
  List.flatMap_append

@[simp] theorem labels_instruction (mnemonic : Bytes) (operands : List Operand) :
    (Line.instruction mnemonic operands).labels = [] := rfl

@[simp] theorem labels_label (name : Bytes) : (Line.label name).labels = [name] := rfl

@[simp] theorem labels_directive (name : Bytes) (arguments : List Argument) :
    (Line.directive name arguments).labels = [] := rfl

theorem places_append (index : Nat) (first second : Code) :
    Code.places index (first ++ second) =
      Code.places index first ++ Code.places (index + first.instructions) second := by
  induction first generalizing index with
  | nil => rfl
  | cons line rest ih =>
    rcases line with ⟨_, _ | ⟨_ | _⟩⟩ <;>
      simp [Code.places, Code.instructions, ih, Nat.add_assoc, Nat.add_comm 1]

theorem map_fst_places (index : Nat) (code : Code) :
    (code.places index).map Prod.fst = code.labels := by
  induction code generalizing index with
  | nil => rfl
  | cons line rest ih =>
    rcases line with ⟨_, _ | ⟨_ | _⟩⟩ <;> simp [Code.places, ih, Function.comp_def]

/-- A label stands for an instruction of the code or for its end. -/
theorem index_of_places {index place : Nat} {code : Code} {name : Bytes}
    (member : (name, place) ∈ code.places index) : place ≤ index + code.instructions := by
  induction code generalizing index with
  | nil => cases member
  | cons line rest ih =>
    rcases line with ⟨labels, _ | ⟨_ | _⟩⟩ <;>
      simp only [Code.places, List.mem_append, List.mem_map, Prod.mk.injEq] at member <;>
      rcases member with ⟨_, _, _, rfl⟩ | later
    · exact Nat.le_add_right ..
    · exact ih later
    · exact Nat.le_add_right ..
    · exact ih later
    · exact Nat.le_add_right ..
    · have bound := ih later
      simp only [Code.instructions]
      omega

theorem le_of_places {index place : Nat} {code : Code} {name : Bytes}
    (member : (name, place) ∈ code.places index) : index ≤ place := by
  induction code generalizing index with
  | nil => cases member
  | cons line rest ih =>
    rcases line with ⟨labels, _ | ⟨_ | _⟩⟩ <;>
      simp only [Code.places, List.mem_append, List.mem_map, Prod.mk.injEq] at member <;>
      rcases member with ⟨_, _, _, rfl⟩ | later
    · exact Nat.le_refl _
    · exact ih later
    · exact Nat.le_refl _
    · exact ih later
    · exact Nat.le_refl _
    · exact Nat.le_of_succ_le (ih later)

namespace Layout

/-- Whether a name has no place yet. -/
def Free (l : Layout) (name : Bytes) : Prop := l.label? name = none ∧ l.symbol? name = none

section

variable {l : Layout} {name other : Bytes} {number : Nat}

private theorem define_text (here : l.current = .text) (free : l.Free name) :
    l.define name = .ok { l with labels := (name, l.count) :: l.labels } := by
  simp [define, free.1, free.2, here]

private theorem define_data (here : l.current = .data) (free : l.Free name) :
    l.define name = .ok { l with symbols := (name, dataBase + l.size) :: l.symbols } := by
  simp [define, free.1, free.2, here]

private theorem free_label (free : l.Free other) (differ : other ≠ name) (index : Nat) :
    Free { l with labels := (name, index) :: l.labels } other := by
  have apart : (other == name) = false := beq_eq_false_iff_ne.mpr differ
  exact ⟨by simpa [label?, List.lookup, apart] using free.1, free.2⟩

private theorem free_symbol (free : l.Free other) (differ : other ≠ name) (address : Word) :
    Free { l with symbols := (name, address) :: l.symbols } other := by
  have apart : (other == name) = false := beq_eq_false_iff_ne.mpr differ
  exact ⟨free.1, by simpa [symbol?, List.lookup, apart] using free.2⟩

private theorem free_labels {names : List Bytes} (free : l.Free other) (absent : other ∉ names)
    (index : Nat) : Free { l with labels := (names.map (·, index)).reverse ++ l.labels } other := by
  refine ⟨?_, free.2⟩
  have missing : ((names.map (·, index)).reverse).lookup other = none := by
    rw [List.lookup_eq_none_iff]
    intro entry member
    obtain ⟨found, known, rfl⟩ := List.mem_map.mp (List.mem_reverse.mp member)
    simpa using fun same : other = found => absent (same ▸ known)
  simpa [label?, List.lookup_append, missing] using free.1

private theorem foldlM_text {names : List Bytes} (here : l.current = .text)
    (free : ∀ name ∈ names, l.Free name) (distinct : names.Nodup) :
    names.foldlM define l =
      .ok { l with labels := (names.map (·, l.count)).reverse ++ l.labels } := by
  induction names generalizing l with
  | nil => rfl
  | cons first rest ih =>
    obtain ⟨new, others⟩ := List.nodup_cons.mp distinct
    have later : ∀ name ∈ rest, Free { l with labels := (first, l.count) :: l.labels } name :=
      fun name member => free_label (free name (List.mem_cons_of_mem _ member))
        (by rintro rfl; exact new member) l.count
    rw [List.foldlM_cons, define_text here (free first (List.mem_cons_self ..))]
    have moved := ih (l := { l with labels := (first, l.count) :: l.labels }) here later others
    simpa using moved

/-- The first pass over code in the text section. -/
theorem lines_text {code : Code} (here : l.current = .text) (fine : code.all Line.isText = true)
    (free : ∀ name ∈ code.labels, l.Free name) (distinct : code.labels.Nodup) :
    l.lines number code = .ok { l with
      count := l.count + code.instructions
      labels := (code.places l.count).reverse ++ l.labels } := by
  induction code generalizing l number with
  | nil => rfl
  | cons first rest ih =>
    rw [labels_cons] at distinct free
    obtain ⟨one, others, apart⟩ := List.nodup_append.mp distinct
    rw [List.all_cons, Bool.and_eq_true] at fine
    have defined := foldlM_text here (fun name member => free name (List.mem_append_left _ member))
      one
    have later : ∀ name ∈ Code.labels rest,
        Free { l with labels := (first.labels.map (·, l.count)).reverse ++ l.labels } name :=
      fun name member => free_labels (free name (List.mem_append_right _ member))
        (fun known => apart name known name member rfl) l.count
    rcases first with ⟨labels, _ | ⟨_ | i⟩⟩
    · have moved : l.line ⟨labels, none⟩ =
          .ok { l with labels := (labels.map (·, l.count)).reverse ++ l.labels } := by
        simp only [line, defined, ok_bind]
        rfl
      have rested := @ih { l with labels := (labels.map (·, l.count)).reverse ++ l.labels }
        (number + 1) here fine.2 later others
      simp only [lines, moved, rested, Code.places, Code.instructions, List.reverse_append,
        List.append_assoc]
    · cases fine.1
    · have moved : l.line ⟨labels, some (.instruction i)⟩ =
          .ok { l with
            count := l.count + 1
            labels := (labels.map (·, l.count)).reverse ++ l.labels } := by
        simp only [line, defined, ok_bind, statement, here]
        rfl
      have rested := @ih { l with
        count := l.count + 1
        labels := (labels.map (·, l.count)).reverse ++ l.labels } (number + 1) here
        fine.2 later others
      simp only [lines, moved, rested, Code.places, Code.instructions, List.reverse_append,
        List.append_assoc, Nat.add_assoc, Nat.add_comm 1]

private theorem foldlM_data {names : List Bytes} (here : l.current = .data)
    (free : ∀ name ∈ names, l.Free name) (distinct : names.Nodup) :
    names.foldlM define l =
      .ok { l with symbols := (names.map (·, dataBase + l.size)).reverse ++ l.symbols } := by
  induction names generalizing l with
  | nil => rfl
  | cons first rest ih =>
    obtain ⟨new, others⟩ := List.nodup_cons.mp distinct
    have later : ∀ name ∈ rest,
        Free { l with symbols := (first, dataBase + l.size) :: l.symbols } name :=
      fun name member => free_symbol (free name (List.mem_cons_of_mem _ member))
        (by rintro rfl; exact new member) _
    rw [List.foldlM_cons, define_data here (free first (List.mem_cons_self ..))]
    have moved := ih (l := { l with symbols := (first, dataBase + l.size) :: l.symbols }) here later
      others
    simpa using moved

private theorem free_symbols {names : List Bytes} (free : l.Free other) (absent : other ∉ names)
    (address : Word) :
    Free { l with symbols := (names.map (·, address)).reverse ++ l.symbols } other := by
  refine ⟨free.1, ?_⟩
  have missing : ((names.map (·, address)).reverse).lookup other = none := by
    rw [List.lookup_eq_none_iff]
    intro entry member
    obtain ⟨found, known, rfl⟩ := List.mem_map.mp (List.mem_reverse.mp member)
    simpa using fun same : other = found => absent (same ▸ known)
  simpa [symbol?, List.lookup_append, missing] using free.2

/-- What the first pass leaves alone and adds in a data section. -/
structure Extends (l next : Layout) (names : List Bytes) : Prop where
  current : next.current = .data
  labels : next.labels = l.labels
  count : next.count = l.count
  symbols : next.symbols.map Prod.fst = names.reverse ++ l.symbols.map Prod.fst

/-- The first pass over code in a data section. -/
theorem lines_data {code : Code} (here : l.current = .data) (fine : code.all Line.isData = true)
    (sized : ∀ line ∈ code, ∀ d, line.statement = some (.directive d) →
      ∀ offset, ∃ size, d.size offset = .ok size)
    (free : ∀ name ∈ code.labels, l.Free name) (distinct : code.labels.Nodup) :
    ∃ next, l.lines number code = .ok next ∧ Extends l next code.labels := by
  induction code generalizing l number with
  | nil => exact ⟨l, rfl, here, rfl, rfl, rfl⟩
  | cons first rest ih =>
    rw [labels_cons] at distinct free
    obtain ⟨one, others, apart⟩ := List.nodup_append.mp distinct
    rw [List.all_cons, Bool.and_eq_true] at fine
    have defined := foldlM_data here (fun name member => free name (List.mem_append_left _ member))
      one
    have later : ∀ name ∈ Code.labels rest, Free { l with
        symbols := (first.labels.map (·, dataBase + l.size)).reverse ++ l.symbols } name :=
      fun name member => free_symbols (free name (List.mem_append_right _ member))
        (fun known => apart name known name member rfl) _
    have onward : ∀ line ∈ rest, ∀ d, line.statement = some (.directive d) →
        ∀ offset, ∃ size, d.size offset = .ok size :=
      fun line member => sized line (List.mem_cons_of_mem _ member)
    rcases first with ⟨labels, _ | ⟨d | _⟩⟩
    · obtain ⟨next, success, current, kept, count, symbols⟩ :=
        @ih { l with symbols := (labels.map (·, dataBase + l.size)).reverse ++ l.symbols }
          (number + 1) here fine.2 onward later others
      have moved : l.line ⟨labels, none⟩ = .ok { l with
          symbols := (labels.map (·, dataBase + l.size)).reverse ++ l.symbols } := by
        simp only [line, defined, ok_bind]
        rfl
      refine ⟨next, by simpa only [lines, moved] using success, current, kept, count, ?_⟩
      rw [symbols]
      simp [Function.comp_def]
    · obtain ⟨size, known⟩ := sized _ (List.mem_cons_self ..) d rfl l.size
      have kinds := fine.1
      simp only [Line.isData, Bool.and_eq_true, Bool.or_eq_true, beq_iff_eq] at kinds
      obtain rfl : labels = [] := List.isEmpty_iff.mp kinds.1
      have stays : Section.after .data d = .ok .data := by
        rcases kinds.2 with (kind | kind) | kind <;> simp [Section.after, kind]
      have moved : l.line ⟨[], some (.directive d)⟩ = .ok { l with
          current := .data, size := l.size + size } := by
        have opened : l.line ⟨[], some (.directive d)⟩ = l.statement (.directive d) := rfl
        rw [opened]
        simp only [statement, here, stays, known, ok_bind, ne_eq, not_true_eq_false, and_false,
          if_false]
        rfl
      have free : ∀ name ∈ Code.labels rest,
          Free { l with current := .data, size := l.size + size } name :=
        fun name member => free name (by simpa using member)
      obtain ⟨next, success, current, kept, count, symbols⟩ :=
        @ih { l with current := .data, size := l.size + size } (number + 1) rfl fine.2 onward free
          others
      exact ⟨next, by simpa only [lines, moved] using success, current, kept, count, symbols⟩
    · cases fine.1

end

end Layout

/-- The names that code declares global. -/
def Line.globals (line : Line) : List Bytes :=
  match line.statement with
  | some (.directive d) =>
    if d.kind = .globl then d.arguments.map fun a => a.symbol?.getD [] else []
  | _ => []

namespace Image

variable {l : Layout} {image after : Image} {number : Nat} {code : Code}

/-- The second pass succeeds if it does on every statement. -/
theorem lines_of_each
    (each : ∀ line ∈ code, ∀ s, line.statement = some s → ∀ (image : Image) (number : Nat),
      ∃ after, image.statement l number s = .ok after) :
    ∃ after, lines l image number code = .ok after := by
  induction code generalizing image number with
  | nil => exact ⟨image, rfl⟩
  | cons first rest ih =>
    have others := fun line member => each line (List.mem_cons_of_mem _ member)
    cases found : first.statement with
    | none => simpa only [lines, found] using ih others
    | some s =>
      obtain ⟨next, moved⟩ := each first (List.mem_cons_self ..) s found image number
      simpa only [lines, found, moved] using ih others

/-- What a line adds to an image besides data. -/
structure Added (l : Layout) (image after : Image) (line : Line) : Prop where
  labels : after.labels = image.labels
  symbols : after.symbols = image.symbols
  globals : after.globals = image.globals ++ line.globals
  text : ∀ instr ∈ after.text, instr ∈ image.text ∨
    ∃ i number, line.statement = some (.instruction i) ∧ l.instruction number i = .ok instr

theorem added_line {first : Line} (success : image.line l number first = .ok after) :
    Added l image after first := by
  rcases first with ⟨labels, _ | ⟨d | i⟩⟩
  · cases success
    exact ⟨rfl, rfl, by simp [Line.globals], fun instr known => .inl known⟩
  · simp only [line, Option.map_some, Option.getD_some, statement] at success
    split at success
    · rename_i kind
      cases success
      exact ⟨rfl, rfl, by simp [Line.globals, kind], fun instr known => .inl known⟩
    · rename_i kind
      obtain ⟨bytes, _, success⟩ := bind_eq_ok.mp success
      cases success
      exact ⟨rfl, rfl, by simp [Line.globals, kind], fun instr known => .inl known⟩
  · obtain ⟨instr, decoded, success⟩ := bind_eq_ok.mp success
    cases success
    refine ⟨rfl, rfl, by simp [Line.globals], fun other known => ?_⟩
    rcases Array.mem_push.mp known with old | rfl
    · exact .inl old
    · exact .inr ⟨i, number, rfl, decoded⟩

/-- What code adds to an image: the names it declares, and instructions that come from its lines. -/
theorem added_lines (success : lines l image number code = .ok after) :
    after.labels = image.labels ∧ after.symbols = image.symbols ∧
      after.globals = image.globals ++ code.flatMap Line.globals ∧
      ∀ instr ∈ after.text, instr ∈ image.text ∨
        ∃ line ∈ code, ∃ i number, line.statement = some (.instruction i) ∧
          l.instruction number i = .ok instr := by
  induction code generalizing image number with
  | nil =>
    cases success
    exact ⟨rfl, rfl, by simp, fun instr known => .inl known⟩
  | cons first rest ih =>
    obtain ⟨middle, moved, others⟩ := lines_cons_eq_ok.mp success
    have added := added_line moved
    obtain ⟨labels, symbols, globals, text⟩ := ih others
    refine ⟨labels.trans added.labels, symbols.trans added.symbols, ?_, fun instr known => ?_⟩
    · simp [globals, added.globals]
    · rcases text instr known with old | ⟨line, member, found⟩
      · rcases added.text instr old with older | ⟨i, number, here, decoded⟩
        · exact .inl older
        · exact .inr ⟨first, List.mem_cons_self .., i, number, here, decoded⟩
      · exact .inr ⟨line, List.mem_cons_of_mem _ member, found⟩

end Image

/-- Whether the symbols of an operand are known. -/
def Operand.isResolved (symbol : Bytes → Bool) : Operand → Bool
  | .immediate (.symbol name) | .absolute (.symbol name) | .based (some (.symbol name)) _ =>
    symbol name
  | _ => true

/-- Whether an instruction can be decoded when some names are symbols of data, some are labels and
some are routines outside the program. -/
def Instruction.isClosed (symbol label routine : Bytes → Bool) (i : Instruction) : Bool :=
  match Mnemonic.ofName? i.mnemonic with
  | none => false
  | some k =>
    decide (k.arity.1 ≤ i.operands.length) && decide (i.operands.length ≤ k.arity.2) &&
      if isBranch i.mnemonic then
        match i.operands with
        | [.absolute (.symbol name)] =>
          if i.mnemonic = "call" then routine name else label name
        | _ => false
      else i.operands.all (Operand.isResolved symbol)

/-- Whether the instruction of a line can be decoded. -/
def Line.isClosed (symbol label routine : Bytes → Bool) (line : Line) : Bool :=
  match line.statement with
  | some (.instruction i) => i.isClosed symbol label routine
  | _ => true

namespace Layout

variable {l : Layout} {number : Nat} {i : Instruction} {instr : Instr}

theorem operand_of_isResolved {o : Operand}
    (known : o.isResolved (fun name => (l.symbol? name).isSome) = true) :
    ∃ decoded, l.operand o = .ok decoded := by
  have value {v : Value} (fine : ∀ name, v = .symbol name → (l.symbol? name).isSome = true) :
      ∃ n, l.value v = .ok n := by
    cases v with
    | number n => exact ⟨_, rfl⟩
    | symbol name =>
      obtain ⟨address, found⟩ := Option.isSome_iff_exists.mp (fine name rfl)
      exact ⟨_, by simp only [Layout.value, found]; rfl⟩
  rcases o with v | name | v | ⟨_ | v, base⟩
  · obtain ⟨n, found⟩ := value (v := v) (by rintro name rfl; exact known)
    exact ⟨_, by simp only [operand, found]; rfl⟩
  · exact ⟨_, rfl⟩
  · obtain ⟨n, found⟩ := value (v := v) (by rintro name rfl; exact known)
    exact ⟨_, by simp only [operand, found]; rfl⟩
  · exact ⟨_, rfl⟩
  · obtain ⟨n, found⟩ := value (v := v) (by rintro name rfl; exact known)
    exact ⟨_, by simp only [operand, found]; rfl⟩

private theorem mapM_of_each {α β ε : Type} {f : α → Except ε β} {inputs : List α}
    (each : ∀ a ∈ inputs, ∃ b, f a = .ok b) : ∃ results, inputs.mapM f = .ok results := by
  induction inputs with
  | nil => exact ⟨[], rfl⟩
  | cons first rest ih =>
    obtain ⟨b, found⟩ := each first (List.mem_cons_self ..)
    obtain ⟨others, later⟩ := ih fun a member => each a (List.mem_cons_of_mem _ member)
    exact ⟨b :: others, by rw [List.mapM_cons, found, later]; rfl⟩

/-- What the decoding of an instruction with known names gives. -/
structure Decoded (l : Layout) (routine : Bytes → Bool) (instr : Instr) : Prop where
  jump : ∀ condition, instr.mnemonic = .jmp ∨ instr.mnemonic = .jump condition →
    ∃ name index, l.label? name = some index ∧ instr.operands = [.target name index]
  call : instr.mnemonic = .call →
    ∃ name, routine name = true ∧ instr.operands = [.target name (-1)]

theorem isBranch_of_jump {k : Mnemonic} {condition : Machine.Condition}
    (jump : k = .jmp ∨ k = .jump condition) :
    isBranch k.name = true ∧ k.name ≠ Bytes.ofString "call" := by
  rcases jump with rfl | rfl
  · exact ⟨rfl, by decide⟩
  · rcases condition with (_ | _ | _ | _ | _ | _) | _ | _ <;> exact ⟨rfl, by decide⟩

/-- An instruction whose names are known can be decoded, and its branches go where they should. -/
theorem instruction_of_isClosed {routine : Bytes → Bool}
    (outside : ∀ name, routine name = true → l.label? name = none)
    (closed : i.isClosed (fun name => (l.symbol? name).isSome)
      (fun name => (l.label? name).isSome) routine = true) :
    ∃ instr, l.instruction number i = .ok instr ∧ Decoded l routine instr := by
  unfold Instruction.isClosed at closed
  split at closed
  · cases closed
  · rename_i k known
    have name : k.name = i.mnemonic := by
      have found := List.find?_some (show Mnemonic.all.find? (·.name = i.mnemonic) = some k from known)
      simpa using found
    simp only [Bool.and_eq_true, decide_eq_true_eq] at closed
    obtain ⟨⟨least, most⟩, closed⟩ := closed
    have arity : ¬ (i.operands.length < k.arity.1 ∨ k.arity.2 < i.operands.length) := by omega
    have opened (operands : List Machine.Operand)
        (mapped : i.operands.mapM (if isBranch i.mnemonic then l.target i.mnemonic else l.operand) =
          .ok operands) : l.instruction number i = .ok ⟨k, operands, number⟩ := by
      simp only [instruction, known, if_neg arity, mapped]
      rfl
    split at closed
    · rename_i branch
      rw [if_pos branch] at opened
      split at closed
      · rename_i target operands
        rw [operands] at opened
        split at closed
        · rename_i call
          have missing := outside target closed
          have decoded : l.target i.mnemonic (.absolute (.symbol target)) =
              .ok (.target target (-1)) := by
            simp only [Layout.target, missing, if_pos call]
          refine ⟨_, opened [.target target (-1)]
            (by rw [List.mapM_cons, decoded]; rfl), fun condition jump => ?_, fun _ => ?_⟩
          · exact absurd (name.trans call) (isBranch_of_jump jump).2
          · exact ⟨target, closed, rfl⟩
        · rename_i plain
          obtain ⟨index, there⟩ := Option.isSome_iff_exists.mp closed
          have decoded : l.target i.mnemonic (.absolute (.symbol target)) =
              .ok (.target target index) := by
            simp only [Layout.target, there]
          refine ⟨_, opened [.target target index]
            (by rw [List.mapM_cons, decoded]; rfl), fun _ _ => ?_, fun call => ?_⟩
          · exact ⟨target, index, there, rfl⟩
          · simp only at call
            subst call
            exact absurd name.symm plain
      · cases closed
    · rename_i plain
      rw [if_neg plain] at opened
      obtain ⟨operands, mapped⟩ := mapM_of_each fun o member =>
        operand_of_isResolved (List.all_eq_true.mp closed o member)
      refine ⟨_, opened operands mapped, fun condition jump => ?_, fun call => ?_⟩
      · rw [← name] at plain
        exact absurd (isBranch_of_jump jump).1 plain
      · simp only at call
        subst call
        exact absurd (by rw [← name]; rfl) plain

end Layout

end Onepass.Assembly
