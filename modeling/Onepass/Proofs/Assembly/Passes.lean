import Onepass.Assembly.Image
import Onepass.Proofs.Action

/-! What the two passes of the assembler make of code. Both can be cut at any line, and they agree
about sizes there. So code in the text section is placed: its labels stand for the indices of the
instructions that follow them, and its instructions are decoded one after the other. The bytes of a
directive stand at the offset where the first pass saw it. -/
namespace Onepass.Assembly

open Onepass.Machine (Word Instr)

namespace Layout

/-- Whether a later layout still knows what this one knows. -/
structure Grows (before after : Layout) : Prop where
  label : ∀ {name : Bytes} {index : Nat}, before.label? name = some index →
    after.label? name = some index
  symbol : ∀ {name : Bytes} {address : Word}, before.symbol? name = some address →
    after.symbol? name = some address

theorem Grows.refl (l : Layout) : Grows l l := ⟨id, id⟩

theorem Grows.trans {first second third : Layout} (one : Grows first second)
    (two : Grows second third) : Grows first third :=
  ⟨fun known => two.label (one.label known), fun known => two.symbol (one.symbol known)⟩

theorem grows_define {l after : Layout} {name : Bytes} (success : l.define name = .ok after) :
    Grows l after := by
  unfold define at success
  split at success
  · cases success
  · rename_i new
    simp only [Bool.or_eq_true, not_or, Bool.not_eq_true, Option.isSome_eq_false_iff,
      Option.isNone_iff_eq_none] at new
    have other : ∀ known : Bytes, (l.label? known ≠ none ∨ l.symbol? known ≠ none) →
        (known == name) = false := by
      rintro known found
      rw [beq_eq_false_iff_ne]
      rintro rfl
      simp [new] at found
    split at success <;> cases success
    · refine ⟨fun {known index} found => ?_, id⟩
      simpa [label?, List.lookup, other known (.inl (by simp [found]))] using found
    · refine ⟨id, fun {known address} found => ?_⟩
      simpa [symbol?, List.lookup, other known (.inr (by simp [found]))] using found

theorem grows_statement {l after : Layout} {s : Statement} (success : l.statement s = .ok after) :
    Grows l after := by
  cases s with
  | directive d =>
    obtain ⟨current, _, rest⟩ := bind_eq_ok.mp success
    obtain ⟨size, _, rest⟩ := bind_eq_ok.mp rest
    split at rest <;> cases rest
    exact ⟨id, id⟩
  | instruction i =>
    simp only [statement] at success
    split at success <;> cases success
    exact ⟨id, id⟩

theorem grows_labels {names : List Bytes} {l after : Layout}
    (success : names.foldlM define l = .ok after) : Grows l after := by
  induction names generalizing l with
  | nil =>
    cases success
    exact .refl _
  | cons name rest ih =>
    obtain ⟨middle, defined, others⟩ := bind_eq_ok.mp success
    exact (grows_define defined).trans (ih others)

theorem line_eq_ok {l after : Layout} {first : Line} :
    l.line first = .ok after ↔ ∃ middle, first.labels.foldlM define l = .ok middle ∧
      (first.statement.map middle.statement).getD (.ok middle) = .ok after := by
  unfold line
  rw [bind_eq_ok]
  cases first.statement <;> rfl

theorem grows_line {l after : Layout} {first : Line} (success : l.line first = .ok after) :
    Grows l after := by
  obtain ⟨middle, defined, moved⟩ := line_eq_ok.mp success
  refine (grows_labels defined).trans ?_
  cases found : first.statement with
  | none =>
    rw [found] at moved
    cases moved
    exact .refl _
  | some s =>
    rw [found] at moved
    exact grows_statement moved

theorem lines_cons_eq_ok {l after : Layout} {number : Nat} {first : Line} {rest : Code} :
    l.lines number (first :: rest) = .ok after ↔
      ∃ middle, l.line first = .ok middle ∧ middle.lines (number + 1) rest = .ok after := by
  simp only [lines]
  cases l.line first <;> simp

theorem lines_append_eq_ok {l after : Layout} {number : Nat} {first second : Code} :
    l.lines number (first ++ second) = .ok after ↔
      ∃ middle, l.lines number first = .ok middle ∧
        middle.lines (number + first.length) second = .ok after := by
  induction first generalizing l number with
  | nil => simp [lines]
  | cons line rest ih =>
    simp only [List.cons_append, lines_cons_eq_ok, ih, List.length_cons]
    constructor
    · rintro ⟨one, moved, two, others, last⟩
      exact ⟨two, ⟨one, moved, others⟩, by rwa [Nat.add_assoc, Nat.add_comm 1] at last⟩
    · rintro ⟨two, ⟨one, moved, others⟩, last⟩
      exact ⟨one, moved, two, others, by rwa [Nat.add_assoc, Nat.add_comm 1]⟩

theorem grows_lines {code : Code} {l after : Layout} {number : Nat}
    (success : l.lines number code = .ok after) : Grows l after := by
  induction code generalizing l number with
  | nil =>
    cases success
    exact .refl _
  | cons line rest ih =>
    obtain ⟨middle, moved, others⟩ := lines_cons_eq_ok.mp success
    exact (grows_line moved).trans (ih others)

end Layout

namespace Image

/-- Adds what a line produces. -/
def line (l : Layout) (number : Nat) (image : Image) (first : Line) : Except Cause Image :=
  (first.statement.map (image.statement l number)).getD (.ok image)

theorem lines_cons_eq_ok {l : Layout} {image after : Image} {number : Nat} {first : Line}
    {rest : Code} :
    lines l image number (first :: rest) = .ok after ↔
      ∃ middle, image.line l number first = .ok middle ∧
        lines l middle (number + 1) rest = .ok after := by
  simp only [lines, line]
  cases first.statement with
  | none => simp
  | some s =>
    simp only [Option.map_some, Option.getD_some]
    cases image.statement l number s <;> simp

theorem lines_append_eq_ok {l : Layout} {image after : Image} {number : Nat}
    {first second : Code} :
    lines l image number (first ++ second) = .ok after ↔
      ∃ middle, lines l image number first = .ok middle ∧
        lines l middle (number + first.length) second = .ok after := by
  induction first generalizing image number with
  | nil => simp [lines]
  | cons line rest ih =>
    simp only [List.cons_append, lines_cons_eq_ok, ih, List.length_cons]
    constructor
    · rintro ⟨one, moved, two, others, last⟩
      exact ⟨two, ⟨one, moved, others⟩, by rwa [Nat.add_assoc, Nat.add_comm 1] at last⟩
    · rintro ⟨two, ⟨one, moved, others⟩, last⟩
      exact ⟨one, moved, two, others, by rwa [Nat.add_assoc, Nat.add_comm 1]⟩

/-- Whether a later image only adds text and data. -/
structure Grows (before after : Image) : Prop where
  text : before.text.toList <+: after.text.toList
  data : before.data.toList <+: after.data.toList

theorem Grows.refl (image : Image) : Grows image image := ⟨List.prefix_rfl, List.prefix_rfl⟩

theorem Grows.trans {first second third : Image} (one : Grows first second)
    (two : Grows second third) : Grows first third :=
  ⟨one.text.trans two.text, one.data.trans two.data⟩

theorem grows_statement {l : Layout} {image after : Image} {number : Nat} {s : Statement}
    (success : image.statement l number s = .ok after) : Grows image after := by
  cases s with
  | directive d =>
    simp only [statement] at success
    split at success
    · cases success
      exact ⟨List.prefix_rfl, List.prefix_rfl⟩
    · obtain ⟨bytes, _, rest⟩ := bind_eq_ok.mp success
      cases rest
      exact ⟨List.prefix_rfl, by simp⟩
  | instruction i =>
    obtain ⟨instr, _, rest⟩ := bind_eq_ok.mp success
    cases rest
    exact ⟨by simp, List.prefix_rfl⟩

theorem grows_line {l : Layout} {image after : Image} {number : Nat} {first : Line}
    (success : image.line l number first = .ok after) : Grows image after := by
  unfold line at success
  cases found : first.statement with
  | none =>
    rw [found] at success
    cases success
    exact .refl _
  | some s =>
    rw [found] at success
    exact grows_statement success

theorem grows_lines {l : Layout} {code : Code} {image after : Image} {number : Nat}
    (success : lines l image number code = .ok after) : Grows image after := by
  induction code generalizing image number with
  | nil =>
    cases success
    exact .refl _
  | cons line rest ih =>
    obtain ⟨middle, moved, others⟩ := lines_cons_eq_ok.mp success
    exact (grows_line moved).trans (ih others)

end Image

/-- Whether the two passes have come to the same place. -/
structure Agree (l : Layout) (image : Image) : Prop where
  size : l.size = image.data.size.toUInt32
  count : l.count = image.text.size

private theorem length_texts (texts : List Bytes) (extra : Bytes) :
    (texts.flatMap (· ++ extra)).length = textSize extra.length texts := by
  induction texts with
  | nil => rfl
  | cons text rest ih => simp [textSize, ih, Nat.add_assoc]

theorem length_mapM {α β ε : Type} {f : α → Except ε β} {inputs : List α}
    {results : List β} (success : inputs.mapM f = .ok results) :
    results.length = inputs.length := by
  induction inputs generalizing results with
  | nil =>
    cases success
    rfl
  | cons first rest ih =>
    rw [List.mapM_cons] at success
    obtain ⟨_, _, success⟩ := bind_eq_ok.mp success
    obtain ⟨others, found, success⟩ := bind_eq_ok.mp success
    cases success
    simp [ih found]

/-- The second pass puts as many bytes as the first pass counted. -/
theorem length_directiveData {l : Layout} {d : Directive} {offset size : Word} {bytes : Bytes}
    (sized : d.size offset = .ok size) (found : l.directiveData d offset = .ok bytes) :
    bytes.length.toUInt32 = size := by
  unfold Directive.size at sized
  unfold Layout.directiveData at found
  split at sized <;> rename_i kind <;> rw [kind] at found
  · obtain ⟨values, mapped, found⟩ := bind_eq_ok.mp found
    cases found
    cases sized
    rw [← length_mapM mapped]
    simp [List.length_flatMap, Machine.Word.bytes, Nat.mul_comm]
  · obtain ⟨values, mapped, found⟩ := bind_eq_ok.mp found
    cases found
    cases sized
    simp [length_mapM mapped]
  · obtain ⟨texts, known, found⟩ := bind_eq_ok.mp found
    obtain ⟨same, again, sized⟩ := bind_eq_ok.mp sized
    obtain rfl := Except.ok.inj (known.symm.trans again)
    cases found
    cases sized
    simpa [List.flatMap_id'] using congrArg Nat.toUInt32 (length_texts texts [])
  · obtain ⟨texts, known, found⟩ := bind_eq_ok.mp found
    obtain ⟨same, again, sized⟩ := bind_eq_ok.mp sized
    obtain rfl := Except.ok.inj (known.symm.trans again)
    cases found
    cases sized
    exact congrArg Nat.toUInt32 (length_texts texts [0])
  · obtain ⟨boundary, known, found⟩ := bind_eq_ok.mp found
    obtain ⟨same, again, sized⟩ := bind_eq_ok.mp sized
    obtain rfl := Except.ok.inj (known.symm.trans again)
    cases found
    cases sized
    simp
  · cases found
    cases sized
    rfl
  · cases found
    cases sized
    rfl
  · cases found
    cases sized
    rfl
  · cases found
    cases sized
    rfl
  · cases sized

theorem labels_keep {names : List Bytes} {l after : Layout}
    (success : names.foldlM Layout.define l = .ok after) :
    after.size = l.size ∧ after.count = l.count ∧ after.current = l.current := by
  induction names generalizing l with
  | nil =>
    cases success
    exact ⟨rfl, rfl, rfl⟩
  | cons name rest ih =>
    obtain ⟨middle, defined, others⟩ := bind_eq_ok.mp success
    have same : middle.size = l.size ∧ middle.count = l.count ∧ middle.current = l.current := by
      unfold Layout.define at defined
      split at defined
      · cases defined
      · split at defined <;> cases defined <;> exact ⟨rfl, rfl, rfl⟩
    obtain ⟨size, count, current⟩ := ih others
    exact ⟨size.trans same.1, count.trans same.2.1, current.trans same.2.2⟩

theorem Agree.statement {l next final : Layout} {image after : Image} {number : Nat}
    {s : Statement} (agree : Agree l image) (first : l.statement s = .ok next)
    (second : image.statement final number s = .ok after) : Agree next after := by
  cases s with
  | instruction i =>
    obtain ⟨instr, _, second⟩ := bind_eq_ok.mp second
    cases second
    simp only [Layout.statement] at first
    split at first <;> cases first
    exact ⟨agree.size, by simp [agree.count]⟩
  | directive d =>
    obtain ⟨current, _, first⟩ := bind_eq_ok.mp first
    obtain ⟨size, sized, first⟩ := bind_eq_ok.mp first
    split at first <;> cases first
    simp only [Image.statement] at second
    split at second
    · rename_i kind
      cases second
      simp only [Directive.size, kind, Except.ok.injEq] at sized
      subst sized
      exact ⟨by simpa using agree.size, agree.count⟩
    · obtain ⟨bytes, found, second⟩ := bind_eq_ok.mp second
      cases second
      rw [← agree.size] at found
      refine ⟨?_, agree.count⟩
      have length := length_directiveData sized found
      simp [← length, agree.size]

theorem Agree.line {l next final : Layout} {image after : Image} {number : Nat} {line : Line}
    (agree : Agree l image) (first : l.line line = .ok next)
    (second : image.line final number line = .ok after) : Agree next after := by
  obtain ⟨middle, defined, first⟩ := Layout.line_eq_ok.mp first
  obtain ⟨size, count, _⟩ := labels_keep defined
  have same : Agree middle image := ⟨size.trans agree.size, count.trans agree.count⟩
  unfold Image.line at second
  cases found : line.statement with
  | none =>
    rw [found] at first second
    cases first
    cases second
    exact same
  | some s =>
    rw [found] at first second
    exact same.statement first second

/-- Where the passes agree before code they agree after it. -/
theorem Agree.lines {code : Code} {l next final : Layout} {image after : Image} {number : Nat}
    (agree : Agree l image) (first : l.lines number code = .ok next)
    (second : Image.lines final image number code = .ok after) : Agree next after := by
  induction code generalizing l image number with
  | nil =>
    cases first
    cases second
    exact agree
  | cons line rest ih =>
    obtain ⟨_, firstLine, firstRest⟩ := Layout.lines_cons_eq_ok.mp first
    obtain ⟨_, secondLine, secondRest⟩ := Image.lines_cons_eq_ok.mp second
    exact ih (agree.line firstLine secondLine) firstRest secondRest

/-- Whether a line can stand in the text section: it holds labels or an instruction. -/
def Line.isText : Line → Bool
  | ⟨_, none⟩ => true
  | ⟨labels, some (.instruction _)⟩ => labels.isEmpty
  | ⟨_, some (.directive _)⟩ => false

/-- Code in its place in the text section: from an index on. -/
def Placed (l : Layout) (text : Array Instr) : (index : Nat) → Code → Prop
  | _, [] => True
  | index, ⟨labels, none⟩ :: rest =>
    (∀ name ∈ labels, l.label? name = some index) ∧ Placed l text index rest
  | index, ⟨_, some (.instruction i)⟩ :: rest =>
    (∃ number instr, l.instruction number i = .ok instr ∧ text[index]? = some instr) ∧
      Placed l text (index + 1) rest
  | _, ⟨_, some (.directive _)⟩ :: _ => False

/-- The number of instructions. -/
def Code.instructions : Code → Nat
  | [] => 0
  | ⟨_, some (.instruction _)⟩ :: rest => Code.instructions rest + 1
  | _ :: rest => Code.instructions rest

@[simp] theorem instructions_nil : Code.instructions [] = 0 := rfl

@[simp] theorem instructions_instruction (mnemonic : Bytes) (operands : List Operand)
    (rest : Code) :
    Code.instructions (.instruction mnemonic operands :: rest) = Code.instructions rest + 1 := rfl

@[simp] theorem instructions_label (name : Bytes) (rest : Code) :
    Code.instructions (.label name :: rest) = Code.instructions rest := rfl

@[simp] theorem instructions_append (first second : Code) :
    Code.instructions (first ++ second) =
      Code.instructions first + Code.instructions second := by
  induction first with
  | nil => simp
  | cons line rest ih =>
    rcases line with ⟨_, _ | ⟨_ | _⟩⟩ <;> simp [Code.instructions, ih, Nat.add_right_comm]

theorem placed_append {l : Layout} {text : Array Instr} {index : Nat} {first second : Code} :
    Placed l text index (first ++ second) ↔
      Placed l text index first ∧ Placed l text (index + first.instructions) second := by
  induction first generalizing index with
  | nil => simp [Placed]
  | cons line rest ih =>
    rcases line with ⟨_, _ | ⟨_ | _⟩⟩ <;>
      simp [Placed, Code.instructions, ih, and_assoc, Nat.add_assoc, Nat.add_comm 1]

theorem placed_instruction {l : Layout} {text : Array Instr} {index : Nat} {mnemonic : Bytes}
    {operands : List Operand} {rest : Code} :
    Placed l text index (.instruction mnemonic operands :: rest) ↔
      (∃ number instr, l.instruction number ⟨mnemonic, operands⟩ = .ok instr ∧
        text[index]? = some instr) ∧ Placed l text (index + 1) rest := Iff.rfl

theorem placed_label {l : Layout} {text : Array Instr} {index : Nat} {name : Bytes} {rest : Code} :
    Placed l text index (.label name :: rest) ↔
      l.label? name = some index ∧ Placed l text index rest := by
  simp [Placed, Line.label]

private theorem defined_labels {names : List Bytes} {l after : Layout} (here : l.current = .text)
    (success : names.foldlM Layout.define l = .ok after) :
    ∀ name ∈ names, after.label? name = some l.count := by
  induction names generalizing l with
  | nil => simp
  | cons first rest ih =>
    obtain ⟨middle, defined, others⟩ := bind_eq_ok.mp success
    have known : middle.label? first = some l.count ∧ middle.current = l.current ∧
        middle.count = l.count := by
      unfold Layout.define at defined
      split at defined
      · cases defined
      · rw [here] at defined
        cases defined
        exact ⟨by simp [Layout.label?], here.symm, rfl⟩
    intro name member
    rcases List.mem_cons.mp member with rfl | later
    · exact (Layout.grows_labels others).label known.1
    · rw [← known.2.2]
      exact ih (known.2.1.trans here) others name later

/-- Code that the passes went through in the text section is in its place. -/
theorem placed_of_passes {code : Code} {l next final : Layout} {image after : Image}
    {number : Nat} {text : Array Instr} (here : l.current = .text) (agree : Agree l image)
    (fine : code.all Line.isText = true) (first : l.lines number code = .ok next)
    (second : Image.lines final image number code = .ok after) (known : next.Grows final)
    (kept : after.text.toList <+: text.toList) : Placed final text l.count code := by
  induction code generalizing l image number with
  | nil => trivial
  | cons line rest ih =>
    rw [List.all_cons, Bool.and_eq_true] at fine
    obtain ⟨middle, firstLine, firstRest⟩ := Layout.lines_cons_eq_ok.mp first
    obtain ⟨between, secondLine, secondRest⟩ := Image.lines_cons_eq_ok.mp second
    have agreed := agree.line firstLine secondLine
    obtain ⟨labeled, defined, moved⟩ := Layout.line_eq_ok.mp firstLine
    obtain ⟨_, count, current⟩ := labels_keep defined
    rcases line with ⟨labels, _ | ⟨_ | i⟩⟩
    · cases moved
      have later := ih (current.trans here) agreed fine.2 firstRest secondRest
      rw [count] at later
      refine ⟨fun name member => ?_, later⟩
      exact ((Layout.grows_lines firstRest).trans known).label
        (defined_labels here defined name member)
    · cases fine.1
    · have advanced : middle.count = l.count + 1 ∧ middle.current = l.current := by
        simp only [Option.map_some, Option.getD_some, Layout.statement] at moved
        split at moved <;> cases moved
        exact ⟨by simp [count], current⟩
      obtain ⟨instr, decoded, pushed⟩ := bind_eq_ok.mp secondLine
      cases pushed
      have later := ih (advanced.2.trans here) agreed fine.2 firstRest secondRest
      rw [advanced.1] at later
      refine ⟨⟨number, instr, decoded, ?_⟩, later⟩
      have whole := (Image.grows_lines secondRest).text.trans kept
      rw [agree.count, ← Array.getElem?_toList]
      obtain ⟨others, same⟩ := whole
      rw [← same]
      simp

private theorem label?_labels {names : List Bytes} {l after : Layout} {name : Bytes}
    (absent : name ∉ names) (unknown : l.label? name = none)
    (success : names.foldlM Layout.define l = .ok after) : after.label? name = none := by
  induction names generalizing l with
  | nil =>
    cases success
    exact unknown
  | cons first rest ih =>
    obtain ⟨middle, defined, others⟩ := bind_eq_ok.mp success
    simp only [List.mem_cons, not_or] at absent
    refine ih absent.2 ?_ others
    have differ : (name == first) = false := beq_eq_false_iff_ne.mpr absent.1
    unfold Layout.define at defined
    split at defined
    · cases defined
    · split at defined <;> cases defined
      · simpa [Layout.label?, List.lookup, differ] using unknown
      · exact unknown

/-- A name that labels no line is no label. -/
theorem label?_lines {code : Code} {l next : Layout} {number : Nat} {name : Bytes}
    (absent : ∀ line ∈ code, name ∉ line.labels) (unknown : l.label? name = none)
    (success : l.lines number code = .ok next) : next.label? name = none := by
  induction code generalizing l number with
  | nil =>
    cases success
    exact unknown
  | cons line rest ih =>
    obtain ⟨middle, moved, others⟩ := Layout.lines_cons_eq_ok.mp success
    obtain ⟨labeled, defined, moved⟩ := Layout.line_eq_ok.mp moved
    refine ih (fun line member => absent line (List.mem_cons_of_mem _ member)) ?_ others
    have still := label?_labels (absent line (List.mem_cons_self ..)) unknown defined
    have same : middle.labels = labeled.labels := by
      rcases line with ⟨_, _ | ⟨d | i⟩⟩
      · cases moved
        rfl
      · obtain ⟨_, _, moved⟩ := bind_eq_ok.mp moved
        obtain ⟨_, _, moved⟩ := bind_eq_ok.mp moved
        split at moved <;> cases moved
        rfl
      · simp only [Option.map_some, Option.getD_some, Layout.statement] at moved
        split at moved <;> cases moved
        rfl
    rwa [Layout.label?, same]

/-- Whether a line can stand in the data section: it holds labels, or a directive that adds
data. -/
def Line.isData : Line → Bool
  | ⟨_, none⟩ => true
  | ⟨labels, some (.directive d)⟩ =>
    labels.isEmpty && (d.kind == .long || d.kind == .asciz || d.kind == .align)
  | ⟨_, some (.instruction _)⟩ => false

/-- Code in its place in the data section: from an offset on. -/
def Stored (l : Layout) (data : Bytes) : (offset : Nat) → Code → Prop
  | _, [] => True
  | offset, ⟨labels, none⟩ :: rest =>
    (∀ name ∈ labels, l.symbol? name = some (dataBase + offset.toUInt32)) ∧
      Stored l data offset rest
  | offset, ⟨_, some (.directive d)⟩ :: rest =>
    ∃ bytes, l.directiveData d offset.toUInt32 = .ok bytes ∧ bytes <+: data.drop offset ∧
      Stored l data (offset + bytes.length) rest
  | _, ⟨_, some (.instruction _)⟩ :: _ => False

theorem Stored.rest {l : Layout} {data : Bytes} {first second : Code} {offset : Nat}
    (stored : Stored l data offset (first ++ second)) : ∃ later, Stored l data later second := by
  induction first generalizing offset with
  | nil => exact ⟨offset, stored⟩
  | cons line rest ih =>
    rcases line with ⟨_, _ | ⟨_ | _⟩⟩
    · exact ih stored.2
    · obtain ⟨_, _, _, later⟩ := stored
      exact ih later
    · exact stored.elim

private theorem defined_symbols {names : List Bytes} {l after : Layout} (here : l.current = .data)
    (success : names.foldlM Layout.define l = .ok after) :
    ∀ name ∈ names, after.symbol? name = some (dataBase + l.size) := by
  induction names generalizing l with
  | nil => simp
  | cons first rest ih =>
    obtain ⟨middle, defined, others⟩ := bind_eq_ok.mp success
    have known : middle.symbol? first = some (dataBase + l.size) ∧
        middle.current = l.current ∧ middle.size = l.size := by
      unfold Layout.define at defined
      split at defined
      · cases defined
      · rw [here] at defined
        cases defined
        exact ⟨by simp [Layout.symbol?], here.symm, rfl⟩
    intro name member
    rcases List.mem_cons.mp member with rfl | later
    · exact (Layout.grows_labels others).symbol known.1
    · rw [← known.2.2]
      exact ih (known.2.1.trans here) others name later

/-- Code that the passes went through in the data section is in its place. -/
theorem stored_of_passes {code : Code} {l next final : Layout} {image after : Image}
    {number : Nat} {data : Bytes} (here : l.current = .data) (agree : Agree l image)
    (fine : code.all Line.isData = true) (first : l.lines number code = .ok next)
    (second : Image.lines final image number code = .ok after) (known : next.Grows final)
    (kept : after.data.toList <+: data) : Stored final data image.data.size code := by
  induction code generalizing l image number with
  | nil => trivial
  | cons line rest ih =>
    rw [List.all_cons, Bool.and_eq_true] at fine
    obtain ⟨middle, firstLine, firstRest⟩ := Layout.lines_cons_eq_ok.mp first
    obtain ⟨between, secondLine, secondRest⟩ := Image.lines_cons_eq_ok.mp second
    have agreed := agree.line firstLine secondLine
    obtain ⟨labeled, defined, moved⟩ := Layout.line_eq_ok.mp firstLine
    obtain ⟨_, _, current⟩ := labels_keep defined
    rcases line with ⟨labels, _ | ⟨d | _⟩⟩
    · cases moved
      cases secondLine
      refine ⟨fun name member => ?_, ih (current.trans here) agreed fine.2 firstRest secondRest⟩
      rw [← agree.size]
      exact ((Layout.grows_lines firstRest).trans known).symbol
        (defined_symbols here defined name member)
    · have kinds := fine.1
      simp only [Line.isData, Bool.and_eq_true, Bool.or_eq_true, beq_iff_eq] at kinds
      have still : middle.current = .data := by
        obtain ⟨section_, same, moved⟩ := bind_eq_ok.mp moved
        obtain ⟨_, _, moved⟩ := bind_eq_ok.mp moved
        split at moved <;> cases moved
        rcases kinds.2 with (kind | kind) | kind <;>
          · simp only [Section.after, kind, Except.ok.injEq] at same
            rw [← same, current, here]
      have notGlobal : d.kind ≠ .globl := by
        rcases kinds.2 with (kind | kind) | kind <;> simp [kind]
      simp only [Image.line, Option.map_some, Option.getD_some, Image.statement,
        if_neg notGlobal] at secondLine
      obtain ⟨bytes, found, pushed⟩ := bind_eq_ok.mp secondLine
      cases pushed
      have later := ih still agreed fine.2 firstRest secondRest
      refine ⟨bytes, found, ?_, by simpa using later⟩
      obtain ⟨others, same⟩ := (Image.grows_lines secondRest).data.trans kept
      rw [← same]
      simp
    · cases fine.1

end Onepass.Assembly
