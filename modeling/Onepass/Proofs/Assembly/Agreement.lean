import Onepass.Proofs.Assembly.Success
import Onepass.Proofs.Machine.Words

/-! The two passes of the assembler agree at every line. The first pass knows a name exactly if the
name labels a line, and it stands for the place that the first pass has come to there. This is the
place where the second pass adds the next byte or the next instruction, so that every name in an
operand or in an argument is resolved to what follows its label. -/
namespace Onepass.Assembly

open Onepass.Machine (Instr Mnemonic Word isBranch)

/-- What a label stands for. -/
inductive Place
  /-- The instruction with an index. -/
  | text (index : Nat)
  /-- The byte at an address. -/
  | data (address : Word)

namespace Layout

/-- The place of the next label. -/
def place (l : Layout) : Place :=
  match l.current with
  | .text => .text l.count
  | .data => .data (dataBase + l.size)

/-- Whether a name stands for a place. -/
def Knows (l : Layout) (name : Bytes) : Place → Prop
  | .text index => l.label? name = some index
  | .data address => l.symbol? name = some address

variable {l after next : Layout} {name other : Bytes} {number : Nat} {p : Place}

theorem knows_define (success : l.define name = .ok after) :
    after.Knows other p ↔ l.Knows other p ∨ other = name ∧ p = l.place := by
  unfold define at success
  split at success
  · cases success
  rename_i new
  simp only [Bool.or_eq_true, not_or, Bool.not_eq_true, Option.isSome_eq_false_iff,
    Option.isNone_iff_eq_none] at new
  by_cases same : other = name
  · subst same
    have missing : ¬ l.Knows other p := by cases p <;> simp [Knows, new]
    unfold label? symbol? at new
    simp only [missing, false_or, true_and]
    cases current : l.current <;> rw [current] at success <;> cases success <;> cases p <;>
      simp [Knows, place, current, label?, symbol?, new, eq_comm]
  · have differ : (other == name) = false := beq_eq_false_iff_ne.mpr same
    cases current : l.current <;> rw [current] at success <;> cases success <;> cases p <;>
      simp [Knows, label?, symbol?, List.lookup, differ, same]

theorem place_define (success : l.define name = .ok after) : after.place = l.place := by
  unfold define at success
  split at success
  · cases success
  · cases current : l.current <;> rw [current] at success <;> cases success <;>
      simp [place, current]

theorem knows_labels {names : List Bytes} (success : names.foldlM define l = .ok after) :
    after.Knows name p ↔ l.Knows name p ∨ name ∈ names ∧ p = l.place := by
  induction names generalizing l with
  | nil =>
    cases success
    simp
  | cons first rest ih =>
    obtain ⟨middle, defined, others⟩ := bind_eq_ok.mp success
    rw [ih others, knows_define defined, place_define defined, List.mem_cons]
    tauto

/-- A statement defines no names. -/
theorem knows_statement {s : Statement} (success : l.statement s = .ok after) :
    after.Knows name p ↔ l.Knows name p := by
  have same : after.labels = l.labels ∧ after.symbols = l.symbols := by
    cases s with
    | directive d =>
      obtain ⟨_, _, success⟩ := bind_eq_ok.mp success
      obtain ⟨_, _, success⟩ := bind_eq_ok.mp success
      split at success <;> cases success
      exact ⟨rfl, rfl⟩
    | instruction i =>
      simp only [statement] at success
      split at success <;> cases success
      exact ⟨rfl, rfl⟩
  cases p <;> simp [Knows, label?, symbol?, same]

theorem knows_line {first : Line} (success : l.line first = .ok after) :
    after.Knows name p ↔ l.Knows name p ∨ name ∈ first.labels ∧ p = l.place := by
  obtain ⟨middle, defined, moved⟩ := line_eq_ok.mp success
  rw [← knows_labels defined]
  cases found : first.statement with
  | none =>
    rw [found] at moved
    cases moved
    rfl
  | some s =>
    rw [found] at moved
    exact knows_statement moved

/-- A name is known after code if it was known before, or if it labels a line of the code. It then
stands for the place that the pass had come to at the line. -/
theorem knows_lines {code : Code} (success : l.lines number code = .ok next) :
    next.Knows name p ↔ l.Knows name p ∨
      ∃ before line rest there, code = before ++ line :: rest ∧
        l.lines number before = .ok there ∧ name ∈ line.labels ∧ p = there.place := by
  induction code generalizing l number with
  | nil =>
    cases success
    simp
  | cons first others ih =>
    obtain ⟨middle, moved, later⟩ := lines_cons_eq_ok.mp success
    rw [ih later, knows_line moved, or_assoc]
    refine or_congr_right ⟨?_, ?_⟩
    · rintro (⟨member, rfl⟩ | ⟨before, line, rest, there, rfl, reached, member, rfl⟩)
      · exact ⟨[], first, others, l, rfl, rfl, member, rfl⟩
      · exact ⟨first :: before, line, rest, there, rfl,
          lines_cons_eq_ok.mpr ⟨middle, moved, reached⟩, member, rfl⟩
    · rintro ⟨before, line, rest, there, split, reached, member, rfl⟩
      cases before with
      | nil =>
        cases split
        cases reached
        exact .inl ⟨member, rfl⟩
      | cons head before =>
        obtain ⟨rfl, rfl⟩ := List.cons.inj split
        obtain ⟨_, again, reached⟩ := lines_cons_eq_ok.mp reached
        obtain rfl := Except.ok.inj (moved.symm.trans again)
        exact .inr ⟨before, line, rest, there, rfl, reached, member, rfl⟩

/-- The first pass counts the instructions. -/
theorem count_lines {code : Code} (success : l.lines number code = .ok next) :
    next.count = l.count + code.instructions := by
  induction code generalizing l number with
  | nil =>
    cases success
    rfl
  | cons first others ih =>
    obtain ⟨middle, moved, later⟩ := lines_cons_eq_ok.mp success
    obtain ⟨labelled, defined, moved⟩ := line_eq_ok.mp moved
    obtain ⟨_, count, _⟩ := labels_keep defined
    rw [ih later]
    rcases first with ⟨labels, _ | ⟨d | i⟩⟩
    · cases moved
      rw [count]
      rfl
    · obtain ⟨_, _, moved⟩ := bind_eq_ok.mp moved
      obtain ⟨_, _, moved⟩ := bind_eq_ok.mp moved
      split at moved <;> cases moved
      rw [count]
      rfl
    · simp only [Option.map_some, Option.getD_some, statement] at moved
      split at moved <;> cases moved
      simp only [count, Code.instructions]
      omega

end Layout

/-! What both passes ask of a directive. -/

/-- Whether the arguments of a directive are as the first pass wants them: a string directive has
strings, and an alignment is a positive number that is not zero as a machine word. -/
structure Directive.IsWhole (d : Directive) : Prop where
  strings : d.kind = .ascii ∨ d.kind = .asciz → ∀ a ∈ d.arguments, ∃ contents, a = .text contents
  alignment : d.kind = .align → ∃ n : Int, d.arguments = [.number n] ∧ 0 < n ∧ Word.ofInt n ≠ 0

theorem strings_eq_ok {directive : Bytes} {arguments : List Argument} {texts : List Bytes} :
    strings directive arguments = .ok texts ↔ arguments = texts.map Argument.text := by
  induction arguments generalizing texts with
  | nil => cases texts <;> simp [strings]
  | cons first rest ih =>
    cases first with
    | text contents =>
      rw [strings, bind_eq_ok]
      cases texts with
      | nil => simp [pure, Except.pure]
      | cons text others => simp [ih, pure, Except.pure, and_comm]
    | number | symbol => cases texts <;> simp [strings]

theorem alignment_eq_ok {arguments : List Argument} {w : Word} :
    alignment arguments = .ok w ↔
      ∃ n : Int, arguments = [.number n] ∧ 0 < n ∧ w = Word.ofInt n ∧ w ≠ 0 := by
  unfold alignment
  split
  · rename_i n
    split
    · simp only [reduceCtorEq, List.cons.injEq, Argument.number.injEq, false_iff]
      rintro ⟨_, ⟨rfl, _⟩, positive, _⟩
      omega
    · split
      · rename_i zero
        simp only [reduceCtorEq, List.cons.injEq, Argument.number.injEq, false_iff]
        rintro ⟨_, ⟨rfl, _⟩, _, rfl, other⟩
        exact other zero
      · rename_i positive zero
        simp only [Except.ok.injEq, List.cons.injEq, Argument.number.injEq, and_true]
        constructor
        · rintro rfl
          exact ⟨n, rfl, by omega, rfl, zero⟩
        · rintro ⟨_, rfl, _, rfl, _⟩
          rfl
  · rename_i other
    simp only [reduceCtorEq, false_iff]
    rintro ⟨n, rfl, _⟩
    exact other n rfl

theorem Directive.isWhole_of_size {d : Directive} {offset size : Word}
    (sized : d.size offset = .ok size) : d.IsWhole where
  strings kind := by
    have texts : ∃ texts, Assembly.strings d.name d.arguments = .ok texts := by
      unfold Directive.size at sized
      rcases kind with kind | kind <;> rw [kind] at sized <;>
        exact (bind_eq_ok.mp sized).imp fun _ => And.left
    obtain ⟨texts, known⟩ := texts
    rw [strings_eq_ok.mp known]
    rintro a member
    obtain ⟨contents, _, rfl⟩ := List.mem_map.mp member
    exact ⟨contents, rfl⟩
  alignment kind := by
    unfold Directive.size at sized
    rw [kind] at sized
    obtain ⟨w, known, _⟩ := bind_eq_ok.mp sized
    obtain ⟨n, arguments, positive, rfl, other⟩ := alignment_eq_ok.mp known
    exact ⟨n, arguments, positive, other⟩

/-- The first pass only lets directives through that are whole. -/
theorem isWhole_of_lines {code : Code} {l next : Layout} {number : Nat}
    (success : l.lines number code = .ok next) {line : Line} (member : line ∈ code) {d : Directive}
    (found : line.statement = some (.directive d)) : d.IsWhole := by
  obtain ⟨before, rest, rfl⟩ := List.append_of_mem member
  obtain ⟨_, _, success⟩ := Layout.lines_append_eq_ok.mp success
  obtain ⟨_, moved, _⟩ := Layout.lines_cons_eq_ok.mp success
  obtain ⟨_, _, moved⟩ := Layout.line_eq_ok.mp moved
  rw [found] at moved
  obtain ⟨_, _, moved⟩ := bind_eq_ok.mp moved
  obtain ⟨_, sized, _⟩ := bind_eq_ok.mp moved
  exact Directive.isWhole_of_size sized

/-! What the second pass makes of operands and arguments. -/

section

variable (address : Bytes → Word → Prop) (index : Bytes → Nat → Prop)

/-- The word that an argument of a data directive stands for, when some names have addresses. -/
inductive Argument.Denotes : Argument → Word → Prop where
  | number (n : Int) : Denotes (.number n) (Word.ofInt n)
  | symbol {name : Bytes} {a : Word} (placed : address name a) : Denotes (.symbol name) a

/-- The number that a value stands for. -/
inductive Value.Denotes : Value → Int32 → Prop where
  | number (n : Int) : Denotes (.number n) (Int32.ofInt n)
  | symbol {name : Bytes} {a : Word} (placed : address name a) : Denotes (.symbol name) a.toInt32

/-- What an operand of an instruction that is no branch is decoded to. -/
inductive Operand.Denotes : Operand → Machine.Operand → Prop where
  | immediate {v : Value} {n : Int32} (value : v.Denotes address n) :
      Denotes (.immediate v) (.immediate n)
  | register (name : Bytes) : Denotes (.register name) (.register (.ofName name))
  | absolute {v : Value} {n : Int32} (value : v.Denotes address n) :
      Denotes (.absolute v) (.memory n none)
  | indirect (base : Bytes) : Denotes (.based none base) (.memory 0 (some (.ofName base)))
  | based {v : Value} {n : Int32} (value : v.Denotes address n) (base : Bytes) :
      Denotes (.based (some v) base) (.memory n (some (.ofName base)))

/-- What the operand of a branch is decoded to, when some names have indices. Only a call may go
outside the program. -/
inductive Operand.Targets (mnemonic : Bytes) : Operand → Machine.Operand → Prop where
  | inside {name : Bytes} {n : Nat} (placed : index name n) :
      Targets mnemonic (.absolute (.symbol name)) (.target name n)
  | outside {name : Bytes} (calls : mnemonic = "call") (unknown : ∀ n, ¬ index name n) :
      Targets mnemonic (.absolute (.symbol name)) (.target name (-1))

end

namespace Layout

variable {l : Layout} {address : Bytes → Word → Prop} {index : Bytes → Nat → Prop}

theorem forall₂_of_mapM {α β ε : Type} {f : α → Except ε β} {related : α → β → Prop}
    (each : ∀ a b, f a = .ok b → related a b) {inputs : List α} {results : List β}
    (success : inputs.mapM f = .ok results) : List.Forall₂ related inputs results := by
  induction inputs generalizing results with
  | nil =>
    cases success
    exact .nil
  | cons first rest ih =>
    rw [List.mapM_cons] at success
    obtain ⟨b, found, success⟩ := bind_eq_ok.mp success
    obtain ⟨others, later, success⟩ := bind_eq_ok.mp success
    cases success
    exact .cons (each first b found) (ih later)

section

variable (symbols : ∀ name a, l.symbol? name = some a → address name a)

include symbols

theorem denotes_of_argumentValue {a : Argument} {w : Word} (found : l.argumentValue a = .ok w) :
    a.Denotes address w := by
  cases a with
  | number n =>
    cases found
    exact .number n
  | symbol name =>
    simp only [argumentValue] at found
    split at found
    · rename_i known
      cases found
      exact .symbol (symbols _ _ known)
    · cases found
  | text => cases found

theorem denotes_of_value {v : Value} {n : Int32} (found : l.value v = .ok n) :
    v.Denotes address n := by
  cases v with
  | number n =>
    cases found
    exact .number n
  | symbol name =>
    simp only [value] at found
    split at found
    · rename_i known
      cases found
      exact .symbol (symbols _ _ known)
    · split at found <;> cases found

theorem denotes_of_operand {o : Operand} {x : Machine.Operand} (found : l.operand o = .ok x) :
    o.Denotes address x := by
  rcases o with v | name | v | ⟨_ | v, base⟩
  · obtain ⟨n, known, found⟩ := bind_eq_ok.mp found
    cases found
    exact .immediate (denotes_of_value symbols known)
  · cases found
    exact .register name
  · obtain ⟨n, known, found⟩ := bind_eq_ok.mp found
    cases found
    exact .absolute (denotes_of_value symbols known)
  · cases found
    exact .indirect base
  · obtain ⟨n, known, found⟩ := bind_eq_ok.mp found
    cases found
    exact .based (denotes_of_value symbols known) base

end

theorem targets_of_target (labels : ∀ name n, l.label? name = some n ↔ index name n)
    {mnemonic : Bytes} {o : Operand} {x : Machine.Operand}
    (found : l.target mnemonic o = .ok x) : o.Targets index mnemonic x := by
  unfold target at found
  split at found
  · rename_i name
    split at found
    · rename_i n known
      cases found
      exact .inside ((labels _ _).mp known)
    · rename_i missing
      split at found
      · rename_i calls
        cases found
        refine .outside calls fun n placed => ?_
        rw [(labels _ _).mpr placed] at missing
        cases missing
      · cases found
  · cases found

/-- The operands of a decoded instruction. -/
theorem operands_of_instruction (symbols : ∀ name a, l.symbol? name = some a → address name a)
    (labels : ∀ name n, l.label? name = some n ↔ index name n) {number : Nat} {i : Instruction}
    {instr : Instr} (decoded : l.instruction number i = .ok instr) :
    List.Forall₂ (fun o x => if isBranch i.mnemonic then o.Targets index i.mnemonic x
      else o.Denotes address x) i.operands instr.operands := by
  unfold instruction at decoded
  cases known : Mnemonic.ofName? i.mnemonic with
  | none => simp [known] at decoded
  | some mnemonic =>
    simp only [known] at decoded
    split at decoded
    · cases decoded
    · obtain ⟨operands, mapped, decoded⟩ := bind_eq_ok.mp decoded
      cases decoded
      refine forall₂_of_mapM (fun o x found => ?_) mapped
      split at found
      · rename_i branch
        rw [if_pos branch]
        exact targets_of_target labels found
      · rename_i plain
        rw [if_neg plain]
        exact denotes_of_operand symbols found

end Layout

/-! What the second pass may still find wrong. -/

/-- Whether a cause is about the arguments that the first pass has looked at. -/
def Cause.isAboutArguments : Cause → Bool
  | .notStrings _ | .badAlignment | .zeroAlignment => true
  | _ => false

namespace Layout

variable {l : Layout} {cause : Cause}

theorem exists_of_mapM_error {α β ε : Type} {f : α → Except ε β} {inputs : List α} {e : ε}
    (failed : inputs.mapM f = .error e) : ∃ a ∈ inputs, f a = .error e := by
  induction inputs with
  | nil => cases failed
  | cons first rest ih =>
    rw [List.mapM_cons] at failed
    cases found : f first with
    | error other =>
      rw [found] at failed
      cases failed
      exact ⟨first, List.mem_cons_self .., found⟩
    | ok b =>
      rw [found] at failed
      cases later : rest.mapM f with
      | error other =>
        simp only [later, ok_bind] at failed
        cases failed
        obtain ⟨a, member, known⟩ := ih later
        exact ⟨a, List.mem_cons_of_mem _ member, known⟩
      | ok others =>
        simp only [later, ok_bind] at failed
        cases failed

theorem value_error {v : Value} (failed : l.value v = .error cause) :
    cause.isAboutArguments = false := by
  cases v with
  | number n => cases failed
  | symbol name =>
    simp only [value] at failed
    split at failed
    · cases failed
    · split at failed <;> cases failed <;> rfl

theorem argumentValue_error {a : Argument} (failed : l.argumentValue a = .error cause) :
    cause.isAboutArguments = false := by
  cases a with
  | number n => cases failed
  | symbol name =>
    simp only [argumentValue] at failed
    split at failed <;> cases failed
    rfl
  | text =>
    cases failed
    rfl

theorem operand_error {o : Operand} (failed : l.operand o = .error cause) :
    cause.isAboutArguments = false := by
  have value {v : Value} {f : Int32 → Machine.Operand}
      (failed : (l.value v >>= fun n => pure (f n)) = .error cause) :
      cause.isAboutArguments = false := by
    cases found : l.value v with
    | ok n =>
      rw [found] at failed
      cases failed
    | error other =>
      rw [found] at failed
      cases failed
      exact value_error found
  rcases o with v | name | v | ⟨_ | v, base⟩
  · exact value failed
  · cases failed
  · exact value failed
  · cases failed
  · exact value failed

theorem target_error {mnemonic : Bytes} {o : Operand}
    (failed : l.target mnemonic o = .error cause) : cause.isAboutArguments = false := by
  unfold target at failed
  split at failed
  · split at failed
    · cases failed
    · split at failed <;> cases failed
      rfl
  · cases failed
    rfl

theorem instruction_error {number : Nat} {i : Instruction}
    (failed : l.instruction number i = .error cause) : cause.isAboutArguments = false := by
  unfold instruction at failed
  cases known : Mnemonic.ofName? i.mnemonic with
  | none =>
    simp only [known, Except.error.injEq] at failed
    subst failed
    rfl
  | some mnemonic =>
    simp only [known] at failed
    split at failed
    · cases failed
      rfl
    · cases mapped : i.operands.mapM
          (if isBranch i.mnemonic then l.target i.mnemonic else l.operand) with
      | ok operands =>
        rw [mapped] at failed
        cases failed
      | error other =>
        rw [mapped] at failed
        cases failed
        obtain ⟨o, _, failed⟩ := exists_of_mapM_error mapped
        split at failed
        · exact target_error failed
        · exact operand_error failed

/-- The second pass finds nothing wrong with the arguments of a directive that is whole. -/
theorem directiveData_error {d : Directive} {offset : Word} (whole : d.IsWhole)
    (failed : l.directiveData d offset = .error cause) : cause.isAboutArguments = false := by
  have values {f : List Word → Bytes}
      (failed : (d.arguments.mapM l.argumentValue >>= fun words => pure (f words)) =
        .error cause) : cause.isAboutArguments = false := by
    cases mapped : d.arguments.mapM l.argumentValue with
    | ok words =>
      rw [mapped] at failed
      cases failed
    | error other =>
      rw [mapped] at failed
      cases failed
      obtain ⟨a, _, failed⟩ := exists_of_mapM_error mapped
      exact argumentValue_error failed
  have texts (kind : d.kind = .ascii ∨ d.kind = .asciz) :
      ∃ texts, strings d.name d.arguments = .ok texts := by
    have each := whole.strings kind
    generalize d.arguments = arguments at each
    induction arguments with
    | nil => exact ⟨[], rfl⟩
    | cons first rest ih =>
      obtain ⟨contents, rfl⟩ := each first (List.mem_cons_self ..)
      obtain ⟨texts, known⟩ := ih fun a member => each a (List.mem_cons_of_mem _ member)
      exact ⟨contents :: texts, by rw [strings, known]; rfl⟩
  unfold directiveData at failed
  split at failed
  · exact values failed
  · exact values failed
  · rename_i kind
    obtain ⟨texts, known⟩ := texts (.inl kind)
    rw [known] at failed
    cases failed
  · rename_i kind
    obtain ⟨texts, known⟩ := texts (.inr kind)
    rw [known] at failed
    cases failed
  · rename_i kind
    obtain ⟨n, arguments, positive, other⟩ := whole.alignment kind
    have known : alignment d.arguments = .ok (Word.ofInt n) :=
      alignment_eq_ok.mpr ⟨n, arguments, positive, rfl, other⟩
    rw [known] at failed
    cases failed
  · cases failed

end Layout

/-- Where the second pass stops, a statement is at fault. -/
theorem Image.statement_of_lines_error {l : Layout} {image : Image} {number : Nat} {code : Code}
    {fault : Fault} (failed : lines l image number code = .error fault) :
    ∃ line ∈ code, ∃ s found place cause, line.statement = some s ∧ fault = .onLine place cause ∧
      statement l place found s = .error cause := by
  induction code generalizing image number with
  | nil => cases failed
  | cons first rest ih =>
    cases here : first.statement with
    | none =>
      simp only [lines, here] at failed
      obtain ⟨line, member, others⟩ := ih failed
      exact ⟨line, List.mem_cons_of_mem _ member, others⟩
    | some s =>
      cases done : image.statement l number s with
      | error cause =>
        simp only [lines, here, done, Except.error.injEq] at failed
        exact ⟨first, List.mem_cons_self .., s, image, number, cause, here, failed.symm, done⟩
      | ok next =>
        simp only [lines, here, done] at failed
        obtain ⟨line, member, others⟩ := ih failed
        exact ⟨line, List.mem_cons_of_mem _ member, others⟩

/-! Both passes at a line. -/

/-- The image before the first line. -/
def Image.start (final : Layout) : Image := { symbols := final.symbols, labels := final.labels }

/-- What the passes over code have when they reach a line after some others. The second pass knows
the whole layout. -/
structure Reached (final : Layout) (code before : Code) (line : Line) (l : Layout) (image : Image) :
    Prop where
  split : ∃ rest, code = before ++ line :: rest
  first : Layout.lines {} 1 before = .ok l
  second : Image.lines final (.start final) 1 before = .ok image

/-- Whether a name labels the byte of data at an address. -/
def LabelsByte (final : Layout) (code : Code) (name : Bytes) (a : Word) : Prop :=
  ∃ before line l image, Reached final code before line l image ∧ name ∈ line.labels ∧
    l.current = .data ∧ a = dataBase + image.data.size.toUInt32

/-- Whether a name labels the instruction with an index. -/
def LabelsInstruction (final : Layout) (code : Code) (name : Bytes) (index : Nat) : Prop :=
  ∃ before line l image, Reached final code before line l image ∧ name ∈ line.labels ∧
    l.current = .text ∧ index = before.instructions

/-- What both passes agree about at a line. -/
structure Consistent (final : Layout) (code : Code) (image : Image) (before : Code) (line : Line)
    (l : Layout) (made : Image) : Prop where
  size : l.size.toNat = made.data.size
  count : l.count = made.text.size
  instructions : l.count = before.instructions
  /-- What the second pass has made here stays. -/
  grows : made.Grows image
  symbol : ∀ name ∈ line.labels, l.current = .data →
    image.symbols.lookup name = some (dataBase + made.data.size.toUInt32)
  label : ∀ name ∈ line.labels, l.current = .text →
    image.labels.lookup name = some before.instructions
  /-- The words of `.long` and `.byte`. -/
  words : ∀ d, line.statement = some (.directive d) → d.kind = .long ∨ d.kind = .byte →
    ∃ words, List.Forall₂ (Argument.Denotes (LabelsByte final code)) d.arguments words ∧
      (if d.kind = .long then words.flatMap Word.bytes else words.map (·.toUInt8)) <+:
        image.data.toList.drop made.data.size
  /-- The operands of an instruction. -/
  decoded : ∀ i, line.statement = some (.instruction i) →
    ∃ instr, image.text[made.text.size]? = some instr ∧
      List.Forall₂ (fun o x =>
        if isBranch i.mnemonic then o.Targets (LabelsInstruction final code) i.mnemonic x
        else o.Denotes (LabelsByte final code) x) i.operands instr.operands

section

variable {final : Layout} {code before rest : Code} {line : Line} {image : Image}
  (first : Layout.ofCode code = .ok final)
  (second : Image.lines final (.start final) 1 code = .ok image)

include first second

theorem exists_reached (split : code = before ++ line :: rest) :
    ∃ l made, Reached final code before line l made ∧ Agree l made ∧ l.Grows final ∧
      made.Grows image ∧ l.count = before.instructions := by
  subst split
  obtain ⟨l, firstHere, firstRest⟩ := Layout.lines_append_eq_ok.mp first
  obtain ⟨made, secondHere, secondRest⟩ := Image.lines_append_eq_ok.mp second
  have start : Agree {} (Image.start final) := ⟨rfl, rfl⟩
  refine ⟨l, made, ⟨⟨rest, rfl⟩, firstHere, secondHere⟩, start.lines firstHere secondHere,
    Layout.grows_lines firstRest, Image.grows_lines secondRest, ?_⟩
  have count := Layout.count_lines firstHere
  rwa [Nat.zero_add] at count

/-- A name has an address exactly if it labels a byte. -/
theorem symbol?_iff_labelsByte (name : Bytes) (a : Word) :
    final.symbol? name = some a ↔ LabelsByte final code name a := by
  have known := @Layout.knows_lines _ _ name _ (.data a) _ first
  simp only [Layout.Knows, Layout.symbol?, List.lookup_nil, reduceCtorEq, false_or] at known
  rw [Layout.symbol?, known]
  constructor
  · rintro ⟨before, line, rest, l, split, reached, member, place⟩
    obtain ⟨again, made, both, agree, _⟩ := exists_reached first second split
    obtain rfl := Except.ok.inj (reached.symm.trans both.first)
    unfold Layout.place at place
    split at place <;> cases place
    rename_i current
    exact ⟨before, line, l, made, both, member, current, by rw [agree.size]⟩
  · rintro ⟨before, line, l, made, both, member, current, rfl⟩
    obtain ⟨rest, split⟩ := both.split
    obtain ⟨_, _, again, agree, _⟩ := exists_reached first second split
    obtain rfl := Except.ok.inj (both.first.symm.trans again.first)
    obtain rfl := Except.ok.inj (both.second.symm.trans again.second)
    refine ⟨before, line, rest, l, split, both.first, member, ?_⟩
    rw [Layout.place, current, agree.size]

/-- A name has an index exactly if it labels an instruction. -/
theorem label?_iff_labelsInstruction (name : Bytes) (index : Nat) :
    final.label? name = some index ↔ LabelsInstruction final code name index := by
  have known := @Layout.knows_lines _ _ name _ (.text index) _ first
  simp only [Layout.Knows, Layout.label?, List.lookup_nil, reduceCtorEq, false_or] at known
  rw [Layout.label?, known]
  constructor
  · rintro ⟨before, line, rest, l, split, reached, member, place⟩
    obtain ⟨again, made, both, _, _, _, count⟩ := exists_reached first second split
    obtain rfl := Except.ok.inj (reached.symm.trans both.first)
    unfold Layout.place at place
    split at place <;> cases place
    rename_i current
    exact ⟨before, line, l, made, both, member, current, count⟩
  · rintro ⟨before, line, l, made, both, member, current, rfl⟩
    obtain ⟨rest, split⟩ := both.split
    obtain ⟨_, _, again, _, _, _, count⟩ := exists_reached first second split
    obtain rfl := Except.ok.inj (both.first.symm.trans again.first)
    refine ⟨before, line, rest, l, split, both.first, member, ?_⟩
    rw [Layout.place, current, count]

/-- What the second pass adds at a line that it has reached. -/
theorem line_of_reached {l : Layout} {made : Image} (reached : Reached final code before line l made)
    : ∃ after, made.line final (1 + before.length) line = .ok after ∧ after.Grows image := by
  obtain ⟨rest, rfl⟩ := reached.split
  obtain ⟨again, here, later⟩ := Image.lines_append_eq_ok.mp second
  obtain rfl := Except.ok.inj (reached.second.symm.trans here)
  obtain ⟨after, moved, later⟩ := Image.lines_cons_eq_ok.mp later
  exact ⟨after, moved, Image.grows_lines later⟩

theorem words_of_reached {l : Layout} {made : Image}
    (reached : Reached final code before line l made) {d : Directive}
    (found : line.statement = some (.directive d)) (kind : d.kind = .long ∨ d.kind = .byte) :
    ∃ words, List.Forall₂ (Argument.Denotes (LabelsByte final code)) d.arguments words ∧
      (if d.kind = .long then words.flatMap Word.bytes else words.map (·.toUInt8)) <+:
        image.data.toList.drop made.data.size := by
  obtain ⟨after, moved, grown⟩ := line_of_reached first second reached
  have other : d.kind ≠ .globl := by rcases kind with kind | kind <;> simp [kind]
  simp only [Image.line, found, Option.map_some, Option.getD_some, Image.statement,
    if_neg other] at moved
  obtain ⟨bytes, data, moved⟩ := bind_eq_ok.mp moved
  cases moved
  have stands : bytes <+: image.data.toList.drop made.data.size := by
    obtain ⟨rest, same⟩ := grown.data
    rw [← same]
    simp
  unfold Layout.directiveData at data
  have each (a : Argument) (w : Word) (found : final.argumentValue a = .ok w) :
      a.Denotes (LabelsByte final code) w :=
    Layout.denotes_of_argumentValue
      (fun name a => (symbol?_iff_labelsByte first second name a).mp) found
  rcases kind with kind | kind <;> rw [kind] at data <;>
    obtain ⟨words, mapped, data⟩ := bind_eq_ok.mp data <;> cases data <;>
    exact ⟨words, Layout.forall₂_of_mapM each mapped, by simpa [kind] using stands⟩

theorem decoded_of_reached {l : Layout} {made : Image}
    (reached : Reached final code before line l made) {i : Instruction}
    (found : line.statement = some (.instruction i)) :
    ∃ instr, image.text[made.text.size]? = some instr ∧
      List.Forall₂ (fun o x =>
        if isBranch i.mnemonic then o.Targets (LabelsInstruction final code) i.mnemonic x
        else o.Denotes (LabelsByte final code) x) i.operands instr.operands := by
  obtain ⟨after, moved, grown⟩ := line_of_reached first second reached
  simp only [Image.line, found, Option.map_some, Option.getD_some, Image.statement] at moved
  obtain ⟨instr, decoded, moved⟩ := bind_eq_ok.mp moved
  cases moved
  refine ⟨instr, ?_, Layout.operands_of_instruction
    (fun name a => (symbol?_iff_labelsByte first second name a).mp)
    (label?_iff_labelsInstruction first second) decoded⟩
  obtain ⟨rest, same⟩ := grown.text
  rw [← Array.getElem?_toList, ← same]
  simp

end

/-- The two passes agree. Once the first pass has gone through code, the second pass finds nothing
wrong with the strings and the alignments of directives. If the second pass goes through too, and
there are fewer bytes of data than words can count, then the passes have come to the same place at
every line: labels stand for the bytes and instructions that are added next, and all names in
arguments and operands are resolved accordingly. -/
theorem passes_agree (code : Code) (final : Layout) (first : Layout.ofCode code = .ok final) :
    (∀ line ∈ code, ∀ d, line.statement = some (.directive d) → d.IsWhole) ∧
    (∀ number cause, Image.ofCode code = .error (.onLine number cause) →
      cause.isAboutArguments = false) ∧
    ∀ image, Image.ofCode code = .ok image → image.data.size < 0x100000000 →
      ∀ before line rest, code = before ++ line :: rest →
        ∃ l made, Reached final code before line l made ∧
          Consistent final code image before line l made := by
  have whole : ∀ line ∈ code, ∀ d, line.statement = some (.directive d) → d.IsWhole :=
    fun line member d found => isWhole_of_lines first member found
  have opened : Image.ofCode code = Image.lines final (.start final) 1 code := by
    rw [Image.ofCode, first]
    rfl
  refine ⟨whole, fun number cause failed => ?_, fun image second small before line rest split => ?_⟩
  · rw [opened] at failed
    obtain ⟨line, member, s, found, place, other, here, same, failed⟩ :=
      Image.statement_of_lines_error failed
    cases same
    cases s with
    | directive d =>
      simp only [Image.statement] at failed
      split at failed
      · cases failed
      · cases data : final.directiveData d found.data.size.toUInt32 with
        | ok bytes =>
          rw [data] at failed
          cases failed
        | error other =>
          rw [data] at failed
          cases failed
          exact Layout.directiveData_error (whole line member d here) data
    | instruction i =>
      cases decoded : final.instruction number i with
      | ok instr =>
        simp only [Image.statement, decoded] at failed
        cases failed
      | error other =>
        simp only [Image.statement, decoded] at failed
        cases failed
        exact Layout.instruction_error decoded
  · rw [opened] at second
    obtain ⟨l, made, reached, agree, known, grown, count⟩ := exists_reached first second split
    have added := Image.added_lines second
    have fits : made.data.size < 0x100000000 := by
      have length := grown.data.length_le
      simp only [Array.length_toList] at length
      omega
    refine ⟨l, made, reached, ?_, agree.count, count, grown, fun name member current => ?_,
      fun name member current => ?_, fun d => words_of_reached first second reached,
      fun i => decoded_of_reached first second reached⟩
    · rw [agree.size]
      exact Word.toNat_natCast fits
    · rw [added.2.1]
      exact (symbol?_iff_labelsByte first second name _).mpr
        ⟨before, line, l, made, reached, member, current, rfl⟩
    · rw [added.1]
      exact (label?_iff_labelsInstruction first second name _).mpr
        ⟨before, line, l, made, reached, member, current, rfl⟩

/-- A program with a word that holds the address of a later string, an alignment, and a jump over an
instruction that refers forward. -/
private def forward : Code :=
  [.directive ".data" [], ⟨["word"], some (.directive ⟨".long", [.symbol "text", .number (-1)]⟩)⟩,
    .directive ".byte" [.number 7], ⟨["text"], some (.directive ⟨".align", [.number 4]⟩)⟩,
    .directive ".asciz" [.text "a"], ⟨["main"], some (.directive ⟨".text", []⟩)⟩,
    .instruction "jmp" [.absolute (.symbol "done")],
    .instruction "movl" [.immediate (.symbol "text"), .register "eax"],
    ⟨["done"], some (.instruction ⟨"ret", []⟩)⟩]

theorem passes_agree_forward :
    ∃ final image, Layout.ofCode forward = .ok final ∧ Image.ofCode forward = .ok image ∧
      image.data.size < 0x100000000 ∧
      ∃ l made, l.size = 9 ∧ made.data.size = 9 ∧ image.symbols.lookup (Bytes.ofString "text") = some 0x1009 ∧
        Consistent final forward image (forward.take 3)
          ⟨["text"], some (.directive ⟨".align", [.number 4]⟩)⟩ l made := by
  have fine : ((Layout.ofCode forward).toOption.bind fun final =>
      (Image.ofCode forward).toOption.map fun image =>
        (decide (image.data.size < 0x100000000), image.symbols.lookup (Bytes.ofString "text"))) =
      some (true, some 0x1009) := by decide +kernel
  have sizes : ((Layout.lines {} 1 (forward.take 3)).toOption.map Layout.size) = some 9 := by
    decide +kernel
  cases first : Layout.ofCode forward with
  | error _ =>
    rw [first] at fine
    cases fine
  | ok final =>
    rw [first] at fine
    cases second : Image.ofCode forward with
    | error _ =>
      rw [second] at fine
      cases fine
    | ok image =>
      rw [second] at fine
      simp only [Except.toOption, Option.bind_some, Option.map_some, Option.some.injEq,
        Prod.mk.injEq, decide_eq_true_eq] at fine
      obtain ⟨_, _, agrees⟩ := passes_agree forward final first
      obtain ⟨l, made, reached, consistent⟩ := agrees image second fine.1 (forward.take 3)
        ⟨["text"], some (.directive ⟨".align", [.number 4]⟩)⟩ (forward.drop 4) rfl
      have nine : l.size = 9 := by
        rw [reached.first] at sizes
        exact Option.some.inj sizes
      refine ⟨final, image, rfl, rfl, fine.1, l, made, nine, ?_, fine.2, consistent⟩
      rw [← consistent.size, nine]
      rfl

end Onepass.Assembly
