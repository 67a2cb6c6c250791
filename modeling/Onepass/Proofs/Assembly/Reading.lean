import Onepass.Assembly.Printer
import Onepass.Assembly.Reader
import Onepass.Proofs.Assembly.Literal

/-! Printed code is read back. The printer leaves out nothing that the reader needs, as long as
names are names, numbers have 64 bits and registers are written in small letters. -/
namespace Onepass.Assembly

open Numeral (decimal digit natural)

/-- Whether a byte string reads as one word. -/
def isName : Bytes → Bool
  | [] => false
  | first :: rest => isLetter first && rest.all isNameByte

/-- Whether a byte string reads as the name of a directive. -/
def isDirectiveName : Bytes → Bool
  | dot :: first :: rest =>
    dot == Bytes.code '.' && isLetter first && rest.all fun b => isLetter b || isDigit b
  | _ => false

def isRegisterName (name : Bytes) : Bool := name ≠ [] && name.all isLower

/-- Whether a number fits 64 bits. -/
def isWide (n : Int) : Bool := -0x8000000000000000 ≤ n && n < 0x8000000000000000

/-! Whether the parts of a program can be read back. -/

def Value.isLegible : Value → Bool
  | .number n => isWide n
  | .symbol name => isName name

def Operand.isLegible : Operand → Bool
  | .immediate value => value.isLegible
  | .register name => isRegisterName name
  | .absolute address => address.isLegible
  | .based offset base => (offset.all Value.isLegible) && isRegisterName base

def Argument.isLegible : Argument → Bool
  | .text _ => true
  | .number n => isWide n
  | .symbol name => isName name || isDirectiveName name

def Statement.isLegible : Statement → Bool
  | .directive d => isDirectiveName d.name && d.arguments.all Argument.isLegible
  | .instruction i => isName i.mnemonic && i.operands.all Operand.isLegible

def Line.isLegible (l : Line) : Bool :=
  l.labels.all isName && l.statement.all Statement.isLegible

/-! The atoms of printed code. -/

def Value.atom : Value → Atom
  | .number n => .integer (decimal n)
  | .symbol name => .word name

def Operand.atoms : Operand → List Atom
  | .immediate value => [.mark (Bytes.code '$'), value.atom]
  | .register name => [.register name]
  | .absolute address => [address.atom]
  | .based offset base =>
    (offset.map Value.atom).toList ++
      [.mark (Bytes.code '('), .register base, .mark (Bytes.code ')')]

def Argument.atoms : Argument → List Atom
  | .text contents => [.text (contents.flatMap Literal.escapeByte)]
  | .number n => [.integer (decimal n)]
  | .symbol name => [if isName name then .word name else .directive name]

/-- Atoms of items with commas between them. -/
def commas : List (List Atom) → List Atom
  | [] => []
  | [item] => item
  | item :: next :: rest => item ++ .mark (Bytes.code ',') :: commas (next :: rest)

def Statement.atoms : Statement → List Atom
  | .directive d => .directive d.name :: commas (d.arguments.map Argument.atoms)
  | .instruction i => .word i.mnemonic :: commas (i.operands.map Operand.atoms)

def Line.atoms (l : Line) : List Atom :=
  l.labels.map .label ++ (l.statement.map Statement.atoms).getD []

/-- Whether a text is cut into these atoms. -/
def Cuts (text : Bytes) (atoms : List Atom) : Prop := ∀ offset, atomsFrom 0 offset text = .ok atoms

private theorem atomsFrom_skip (text rest : Bytes) (offset : Nat) :
    atomsFrom text.length offset (text ++ rest) = atomsFrom 0 (offset + text.length) rest := by
  induction text generalizing offset with
  | nil => rfl
  | cons b text ih =>
    simp only [List.length_cons, List.cons_append, atomsFrom, ih]
    congr 1
    omega

theorem Cuts.nil : Cuts [] [] := fun _ => rfl

/-- A text is cut piece by piece: after a piece the cutting goes on with the rest. -/
theorem atomsFrom_piece {first : UInt8} (piece : Bytes) {rest : Bytes} {atom : Option Atom}
    (found : atomAt? first (piece ++ rest) = some (atom, piece.length + 1)) (offset : Nat) :
    atomsFrom 0 offset (first :: piece ++ rest) =
      (atomsFrom 0 (offset + (piece.length + 1)) rest).map (atom.toList ++ ·) := by
  rw [List.cons_append, atomsFrom, found]
  simp only [Nat.add_sub_cancel, atomsFrom_skip, Nat.add_assoc, Nat.add_comm 1]
  cases atomsFrom 0 (offset + (piece.length + 1)) rest <;> rfl

theorem Cuts.piece {first : UInt8} (piece : Bytes) {rest : Bytes} {atom : Option Atom}
    {atoms : List Atom} (found : atomAt? first (piece ++ rest) = some (atom, piece.length + 1))
    (later : Cuts rest atoms) : Cuts (first :: piece ++ rest) (atom.toList ++ atoms) := by
  intro offset
  rw [atomsFrom_piece piece found, later]
  rfl

/-- Whether no byte of a kind comes next. -/
def Stops (kind : UInt8 → Bool) (rest : Bytes) : Prop := ∀ b ∈ rest.head?, kind b = false

private theorem takeWhile_stops {kind : UInt8 → Bool} {piece rest : Bytes}
    (all : ∀ b ∈ piece, kind b = true) (stops : Stops kind rest) :
    (piece ++ rest).takeWhile kind = piece ∧ (piece ++ rest).dropWhile kind = rest := by
  have none : rest.takeWhile kind = [] ∧ rest.dropWhile kind = rest := by
    cases rest with
    | nil => simp
    | cons b _ => simp [stops b (by simp)]
  rw [List.takeWhile_append_of_pos all, List.dropWhile_append_of_pos all]
  simp [none]

private theorem ne_of_kind {kind : UInt8 → Bool} {b c : UInt8} (holds : kind b = true)
    (other : kind c = false) : b ≠ c := by
  rintro rfl
  rw [holds] at other
  cases other

theorem Cuts.blank {b : UInt8} {rest : Bytes} {atoms : List Atom} (blank : b = 9 ∨ b = 32)
    (later : Cuts rest atoms) : Cuts (b :: rest) atoms := by
  have found : atomAt? b ([] ++ rest) = some (none, 0 + 1) := by
    rcases blank with rfl | rfl <;> rfl
  exact Cuts.piece [] found later

theorem Cuts.mark {b : UInt8} {rest : Bytes} {atoms : List Atom} (mark : isMark b = true)
    (later : Cuts rest atoms) : Cuts (b :: rest) (.mark b :: atoms) := by
  have found : atomAt? b ([] ++ rest) = some (some (.mark b), 0 + 1) := by
    simp only [isMark, Bool.or_eq_true, beq_iff_eq] at mark
    rcases mark with ((rfl | rfl) | rfl) | rfl <;> rfl
  exact Cuts.piece [] found later

theorem Cuts.word {name rest : Bytes} {atoms : List Atom} (legible : isName name = true)
    (stops : Stops isNameByte rest) (colon : rest.head? ≠ some (Bytes.code ':'))
    (later : Cuts rest atoms) : Cuts (name ++ rest) (.word name :: atoms) := by
  cases name with
  | nil => cases legible
  | cons first letters =>
    simp only [isName, Bool.and_eq_true, List.all_eq_true] at legible
    obtain ⟨letter, all⟩ := legible
    obtain ⟨taken, dropped⟩ := takeWhile_stops all stops
    have hash : first ≠ Bytes.code '#' := ne_of_kind letter rfl
    have quote : first ≠ Bytes.code '"' := ne_of_kind letter rfl
    have found : atomAt? first (letters ++ rest) =
        some (some (.word (first :: letters)), letters.length + 1) := by
      simp [atomAt?, hash, quote, letter, taken, dropped, colon]
    exact Cuts.piece letters found later

theorem Cuts.label {name rest : Bytes} {atoms : List Atom} (legible : isName name = true)
    (later : Cuts rest atoms) :
    Cuts (name ++ Bytes.code ':' :: rest) (.label name :: atoms) := by
  cases name with
  | nil => cases legible
  | cons first letters =>
    simp only [isName, Bool.and_eq_true, List.all_eq_true] at legible
    obtain ⟨letter, all⟩ := legible
    have stops : Stops isNameByte (Bytes.code ':' :: rest) := by
      intro b head
      cases head
      rfl
    obtain ⟨taken, dropped⟩ := takeWhile_stops all stops
    have hash : first ≠ Bytes.code '#' := ne_of_kind letter rfl
    have quote : first ≠ Bytes.code '"' := ne_of_kind letter rfl
    have found : atomAt? first ((letters ++ [Bytes.code ':']) ++ rest) =
        some (some (.label (first :: letters)), (letters ++ [Bytes.code ':']).length + 1) := by
      simp [atomAt?, hash, quote, letter, taken, dropped]
    simpa using Cuts.piece _ found later

theorem Cuts.register {name rest : Bytes} {atoms : List Atom}
    (legible : isRegisterName name = true) (stops : Stops isLower rest) (later : Cuts rest atoms) :
    Cuts (Bytes.code '%' :: name ++ rest) (.register name :: atoms) := by
  simp only [isRegisterName, Bool.and_eq_true, decide_eq_true_eq, List.all_eq_true] at legible
  obtain ⟨some, all⟩ := legible
  obtain ⟨taken, _⟩ := takeWhile_stops all stops
  have found : atomAt? (Bytes.code '%') (name ++ rest) =
      Option.some (Option.some (.register name), name.length + 1) := by
    have head : atomAt? (Bytes.code '%') (name ++ rest) =
        let taken := (name ++ rest).takeWhile isLower
        if taken = [] then none else Option.some (Option.some (.register taken), taken.length + 1) :=
      rfl
    simp [head, taken, some]
  exact Cuts.piece name found later

theorem Cuts.directive {name rest : Bytes} {atoms : List Atom}
    (legible : isDirectiveName name = true) (stops : Stops (fun b => isLetter b || isDigit b) rest)
    (later : Cuts rest atoms) : Cuts (name ++ rest) (.directive name :: atoms) := by
  match name with
  | [] | [_] => cases legible
  | dot :: first :: letters =>
    simp only [isDirectiveName, Bool.and_eq_true, beq_iff_eq, List.all_eq_true] at legible
    obtain ⟨⟨rfl, letter⟩, all⟩ := legible
    have every : ∀ b ∈ first :: letters, (isLetter b || isDigit b) = true := by
      intro b member
      rcases List.mem_cons.mp member with rfl | later
      · simp [letter]
      · exact all b later
    obtain ⟨taken, _⟩ := takeWhile_stops every stops
    have found : atomAt? (Bytes.code '.') ((first :: letters) ++ rest) =
        some (some (.directive (Bytes.code '.' :: first :: letters)),
          (first :: letters).length + 1) := by
      have head : atomAt? (Bytes.code '.') ((first :: letters) ++ rest) =
          if isLetter first then
            let name := Bytes.code '.' ::
              ((first :: letters) ++ rest).takeWhile fun b => isLetter b || isDigit b
            some (some (.directive name), name.length)
          else none := rfl
      rw [head, if_pos letter, taken]
      rfl
    exact Cuts.piece (first :: letters) found later

/-- A quoted string is one atom, whatever follows it. -/
theorem atomAt?_quote (contents rest : Bytes) :
    atomAt? 34 ((contents.flatMap Literal.escapeByte ++ [34]) ++ rest) =
      some (some (.text (contents.flatMap Literal.escapeByte)),
        (contents.flatMap Literal.escapeByte ++ [34]).length + 1) := by
  have head : ∀ rest, atomAt? 34 rest =
      (Literal.contents? rest).map fun contents =>
        (some (.text contents), contents.length + 2) := fun _ => rfl
  rw [head, List.append_assoc, List.singleton_append, Literal.contents?_quote]
  simp

/-- A string literal may hold any bytes. -/
theorem Cuts.text (contents : Bytes) {rest : Bytes} {atoms : List Atom} (later : Cuts rest atoms) :
    Cuts (Literal.quote contents ++ rest)
      (.text (contents.flatMap Literal.escapeByte) :: atoms) := by
  simpa [Literal.quote] using Cuts.piece _ (atomAt?_quote contents rest) later

private theorem digit_kinds {d : Nat} (below : d < 10) :
    isDigit (digit d) = true ∧ isLetter (digit d) = false ∧ digit d ≠ Bytes.code '#' ∧
      digit d ≠ Bytes.code '"' ∧ digit d ≠ Bytes.code '.' ∧ digit d ≠ Bytes.code '%' := by
  have all : ∀ d < 10, isDigit (digit d) = true ∧ isLetter (digit d) = false ∧
      digit d ≠ Bytes.code '#' ∧ digit d ≠ Bytes.code '"' ∧ digit d ≠ Bytes.code '.' ∧
      digit d ≠ Bytes.code '%' := by
    decide
  exact all d below

theorem natural_digits (n : Nat) : ∀ b ∈ natural 10 n, isDigit b = true := by
  intro b member
  obtain ⟨d, below, rfl⟩ := Numeral.mem_natural (by omega) member
  exact (digit_kinds below).1

theorem Cuts.integer (n : Int) {rest : Bytes} {atoms : List Atom} (stops : Stops isDigit rest)
    (later : Cuts rest atoms) : Cuts (decimal n ++ rest) (.integer (decimal n) :: atoms) := by
  have digits := natural_digits n.natAbs
  unfold decimal
  split
  · obtain ⟨taken, _⟩ := takeWhile_stops digits stops
    have found : atomAt? 45 (natural 10 n.natAbs ++ rest) =
        some (some (.integer (45 :: natural 10 n.natAbs)), (natural 10 n.natAbs).length + 1) := by
      have head : ∀ rest, atomAt? 45 rest =
          let digits := rest.takeWhile isDigit
          if digits = [] then none else some (some (.integer (45 :: digits)), digits.length + 1) :=
        fun _ => rfl
      simp [head, taken, Numeral.natural_ne_nil]
    exact Cuts.piece _ found later
  · obtain ⟨d, others, below, same⟩ := Literal.natural_head n.natAbs
    rw [same] at digits ⊢
    obtain ⟨taken, _⟩ := takeWhile_stops
      (fun b member => digits b (List.mem_cons_of_mem _ member)) stops
    have found : atomAt? (digit d) (others ++ rest) =
        some (some (.integer (digit d :: others)), others.length + 1) := by
      simp [atomAt?, digit_kinds below, taken]
    exact Cuts.piece _ found later

/-- Whether an item of a list ends here: at a comma or at the end of the line. -/
def Ends (rest : Bytes) : Prop := ∀ b ∈ rest.head?, b = Bytes.code ','

private theorem Ends.stops {rest : Bytes} (ends : Ends rest) {kind : UInt8 → Bool}
    (other : kind (Bytes.code ',') = false) : Stops kind rest := by
  intro b head
  rw [ends b head]
  exact other

private theorem Ends.no_colon {rest : Bytes} (ends : Ends rest) :
    rest.head? ≠ some (Bytes.code ':') := by
  intro head
  have same := ends _ head
  cases same

private theorem Stops.cons {kind : UInt8 → Bool} {b : UInt8} (rest : Bytes)
    (other : kind b = false) : Stops kind (b :: rest) := by
  intro c head
  cases head
  exact other

private theorem Value.cuts {value : Value} {rest : Bytes} {atoms : List Atom}
    (legible : value.isLegible = true) (stops : Stops isNameByte rest)
    (colon : rest.head? ≠ some (Bytes.code ':')) (later : Cuts rest atoms) :
    Cuts (value.print ++ rest) (value.atom :: atoms) := by
  cases value with
  | number n =>
    refine Cuts.integer n (fun b head => ?_) later
    have other := stops b head
    simp only [isNameByte, Bool.or_eq_false_iff] at other
    exact other.1.2
  | symbol name => exact Cuts.word legible stops colon later

private theorem opening_eq : Bytes.ofString "(%" = [Bytes.code '(', Bytes.code '%'] := rfl

private theorem closing_eq : Bytes.ofString ")" = [Bytes.code ')'] := rfl

private theorem comma_eq : Bytes.ofString "," = [Bytes.code ','] := rfl

private theorem base_cuts {base rest : Bytes} {atoms : List Atom}
    (legible : isRegisterName base = true) (later : Cuts rest atoms) :
    Cuts (("(%" : Bytes) ++ base ++ (")" : Bytes) ++ rest)
      (.mark (Bytes.code '(') :: .register base :: .mark (Bytes.code ')') :: atoms) := by
  have close : Cuts (Bytes.code ')' :: rest) (.mark (Bytes.code ')') :: atoms) :=
    Cuts.mark rfl later
  have whole := Cuts.mark (b := Bytes.code '(') rfl
    (Cuts.register legible (Stops.cons rest rfl) close)
  simpa [opening_eq, closing_eq] using whole

private theorem Operand.cuts {o : Operand} {rest : Bytes} {atoms : List Atom}
    (legible : o.isLegible = true) (ends : Ends rest) (later : Cuts rest atoms) :
    Cuts (o.print ++ rest) (o.atoms ++ atoms) := by
  cases o with
  | immediate value =>
    exact Cuts.mark (b := Bytes.code '$') rfl
      (Value.cuts legible (ends.stops rfl) ends.no_colon later)
  | register name => exact Cuts.register legible (ends.stops rfl) later
  | absolute address => exact Value.cuts legible (ends.stops rfl) ends.no_colon later
  | based offset base =>
    simp only [Operand.isLegible, Bool.and_eq_true] at legible
    have close := base_cuts legible.2 later
    cases offset with
    | none => simpa [Operand.print, Operand.atoms] using close
    | some value =>
      have readable : value.isLegible = true := by simpa using legible.1
      rw [opening_eq] at close
      have whole := Value.cuts readable (Stops.cons _ rfl) (by simp; decide) close
      simpa [Operand.print, Operand.atoms, opening_eq] using whole

private theorem Argument.cuts {a : Argument} {rest : Bytes} {atoms : List Atom}
    (legible : a.isLegible = true) (ends : Ends rest) (later : Cuts rest atoms) :
    Cuts (a.print ++ rest) (a.atoms ++ atoms) := by
  cases a with
  | text contents => exact Cuts.text contents later
  | number n => exact Cuts.integer n (ends.stops rfl) later
  | symbol name =>
    simp only [Argument.isLegible, Bool.or_eq_true] at legible
    by_cases word : isName name = true
    · simpa [Argument.print, Argument.atoms, word] using
        Cuts.word word (ends.stops rfl) ends.no_colon later
    · simpa [Argument.print, Argument.atoms, word] using
        Cuts.directive (legible.resolve_left word) (ends.stops rfl) later

/-- Items with commas between them are cut item by item. -/
private theorem join_cuts {α : Type} {print : α → Bytes} {atoms : α → List Atom} {items : List α}
    (each : ∀ item ∈ items, ∀ rest more, Ends rest → Cuts rest more →
      Cuts (print item ++ rest) (atoms item ++ more)) :
    Cuts (Bytes.join "," (items.map print)) (commas (items.map atoms)) := by
  induction items with
  | nil => exact Cuts.nil
  | cons item rest ih =>
    have first := each item (by simp)
    have others := ih fun other member => each other (by simp [member])
    cases rest with
    | nil => simpa [Bytes.join, commas] using first [] [] (by simp [Ends]) Cuts.nil
    | cons next more =>
      have comma := Cuts.mark (b := Bytes.code ',') rfl others
      have ends : Ends (Bytes.code ',' :: Bytes.join "," ((next :: more).map print)) := by
        intro b head
        cases head
        rfl
      have whole := first _ _ ends comma
      simpa [Bytes.join, commas, comma_eq] using whole

private theorem mem_name {b : UInt8} {name : Bytes} (legible : isName name = true)
    (member : b ∈ name) : isNameByte b = true := by
  cases name with
  | nil => cases legible
  | cons first rest =>
    simp only [isName, Bool.and_eq_true, List.all_eq_true] at legible
    rcases List.mem_cons.mp member with rfl | later
    · simp [isNameByte, legible.1]
    · exact legible.2 b later

private theorem replaceFirst_name {name rest : Bytes} (legible : isName name = true) :
    Bytes.replaceFirst 32 9 (name ++ 32 :: rest) = name ++ 9 :: rest ∧
      Bytes.replaceFirst 32 9 name = name := by
  have plain : ∀ b ∈ name, b ≠ 32 := by
    intro b member
    exact ne_of_kind (mem_name legible member) rfl
  clear legible
  induction name with
  | nil => exact ⟨rfl, rfl⟩
  | cons b name ih =>
    have head := plain b (by simp)
    have tail := ih fun c member => plain c (by simp [member])
    simp [Bytes.replaceFirst, head, tail]

/-- Bytes of an instruction: neither line ends nor colons. -/
def isPlain (b : UInt8) : Bool := b != 10 && b != Bytes.code ':'

/-- Bytes of names, numbers and operands: visible, and no colons. -/
def isGraphic (b : UInt8) : Bool := 0x21 ≤ b && b ≤ 0x7E && b != Bytes.code ':'

theorem isPlain_of_isGraphic {b : UInt8} (graphic : isGraphic b = true) : isPlain b = true := by
  have newline : b ≠ 10 := ne_of_kind graphic rfl
  have colon : b ≠ Bytes.code ':' := ne_of_kind graphic rfl
  simp [isPlain, newline, colon]

private theorem isGraphic_of_isNameByte {b : UInt8} (holds : isNameByte b = true) :
    isGraphic b = true := by
  have colon : b ≠ Bytes.code ':' := ne_of_kind holds rfl
  have dot : (Bytes.code '.').toNat = 46 := rfl
  simp only [isNameByte, isLetter, isDigit, Bool.or_eq_true, Bool.and_eq_true, decide_eq_true_eq,
    beq_iff_eq, UInt8.le_iff_toNat_le, ← UInt8.toNat_inj, dot, UInt8.reduceToNat] at holds
  have range : 0x21 ≤ b.toNat ∧ b.toNat ≤ 0x7E := by omega
  simpa [isGraphic, colon, UInt8.le_iff_toNat_le] using range

theorem isGraphic_name {name : Bytes} (legible : isName name = true) :
    ∀ b ∈ name, isGraphic b = true := by
  intro b member
  exact isGraphic_of_isNameByte (mem_name legible member)

private theorem isGraphic_register {name : Bytes} (legible : isRegisterName name = true) :
    ∀ b ∈ name, isGraphic b = true := by
  intro b member
  simp only [isRegisterName, Bool.and_eq_true, List.all_eq_true] at legible
  have lower := legible.2 b member
  refine isGraphic_of_isNameByte ?_
  simp only [isLower] at lower
  simp [isNameByte, isLetter, lower]

private theorem isGraphic_decimal (n : Int) : ∀ b ∈ decimal n, isGraphic b = true := by
  have digits : ∀ b ∈ natural 10 n.natAbs, isGraphic b = true := by
    intro b member
    refine isGraphic_of_isNameByte ?_
    simp [isNameByte, natural_digits _ b member]
  unfold decimal
  split
  · intro b member
    rcases List.mem_cons.mp member with rfl | later
    · rfl
    · exact digits b later
  · exact digits

private theorem isGraphic_value {value : Value} (legible : value.isLegible = true) :
    ∀ b ∈ value.print, isGraphic b = true := by
  cases value with
  | number n => exact isGraphic_decimal n
  | symbol name => exact isGraphic_name legible

theorem isGraphic_operand {o : Operand} (legible : o.isLegible = true) :
    ∀ b ∈ o.print, isGraphic b = true := by
  rw [← List.all_eq_true]
  cases o with
  | immediate value =>
    have inner := List.all_eq_true.mpr (isGraphic_value legible)
    simp only [Operand.print, List.all_append, inner, Bool.and_true]
    rfl
  | register name =>
    have inner := List.all_eq_true.mpr (isGraphic_register legible)
    simp only [Operand.print, List.all_append, inner, Bool.and_true]
    rfl
  | absolute address => exact List.all_eq_true.mpr (isGraphic_value legible)
  | based offset base =>
    simp only [Operand.isLegible, Bool.and_eq_true] at legible
    have register := List.all_eq_true.mpr (isGraphic_register legible.2)
    cases offset with
    | none =>
      simp only [Operand.print, List.all_append, register, Bool.and_true]
      rfl
    | some value =>
      have inner := List.all_eq_true.mpr (isGraphic_value (by simpa using legible.1))
      simp only [Operand.print, Option.map_some, Option.getD_some, List.all_append, register,
        inner, Bool.and_true, Bool.true_and]
      rfl

private theorem all_join {kind : UInt8 → Bool} {separator : Bytes} {parts : List Bytes}
    (between : separator.all kind = true) (each : ∀ part ∈ parts, part.all kind = true) :
    (Bytes.join separator parts).all kind = true := by
  induction parts with
  | nil => rfl
  | cons part rest ih =>
    have first := each part (by simp)
    have others := ih fun other member => each other (by simp [member])
    cases rest with
    | nil => exact first
    | cons next more =>
      simp only [Bytes.join, List.all_append, first, between, others, Bool.and_true]

theorem isGraphic_operands {operands : List Operand}
    (legible : operands.all Operand.isLegible = true) :
    (Bytes.join "," (operands.map Operand.print)).all isGraphic = true := by
  refine all_join rfl fun part member => ?_
  obtain ⟨o, known, rfl⟩ := List.mem_map.mp member
  exact List.all_eq_true.mpr (isGraphic_operand (List.all_eq_true.mp legible o known))

theorem isPlain_instruction {i : Instruction} (mnemonic : isName i.mnemonic = true)
    (operands : i.operands.all Operand.isLegible = true) : ∀ b ∈ i.text, isPlain b = true := by
  have word : ∀ b ∈ i.mnemonic, isPlain b = true :=
    fun b member => isPlain_of_isGraphic (isGraphic_name mnemonic b member)
  intro b member
  unfold Instruction.text at member
  split at member
  · exact word b member
  · rcases List.mem_append.mp member with front | list
    · rcases List.mem_append.mp front with letter | blank
      · exact word b letter
      · cases List.mem_singleton.mp blank
        rfl
    · exact isPlain_of_isGraphic (List.all_eq_true.mp (isGraphic_operands operands) b list)

theorem text_eq (i : Instruction) :
    i.text = i.mnemonic ++
      if i.operands = [] then [] else 32 :: Bytes.join "," (i.operands.map Operand.print) := by
  have blank : Bytes.ofString " " = [32] := rfl
  unfold Instruction.text
  split
  · rename_i none
    simp [none]
  · rename_i some
    rw [if_neg some, blank, List.append_assoc, List.singleton_append]

/-- An instruction is never taken for a label. -/
private theorem print_instruction {i : Instruction} (mnemonic : isName i.mnemonic = true)
    (operands : i.operands.all Operand.isLegible = true) :
    i.print = 9 :: (i.mnemonic ++
      if i.operands = [] then [] else 9 :: Bytes.join "," (i.operands.map Operand.print)) := by
  have plain := isPlain_instruction mnemonic operands
  have last : i.text.getLast? ≠ some (Bytes.code ':') := by
    intro ends
    have impossible := plain _ (List.mem_of_getLast? ends)
    cases impossible
  have replaced := @replaceFirst_name i.mnemonic (Bytes.join "," (i.operands.map Operand.print))
    mnemonic
  unfold Instruction.print
  rw [if_neg last, text_eq]
  by_cases none : i.operands = []
  · simp [none, replaced.2]
  · simp only [if_neg none, replaced.1]

/-- An instruction is cut after its mnemonic, whichever blank stands there. -/
theorem cuts_instruction {i : Instruction} (legible : (Statement.instruction i).isLegible = true)
    {b : UInt8} (blank : b = 9 ∨ b = 32) :
    Cuts (i.mnemonic ++
        if i.operands = [] then [] else b :: Bytes.join "," (i.operands.map Operand.print))
      (Statement.instruction i).atoms := by
  simp only [Statement.isLegible, Bool.and_eq_true] at legible
  obtain ⟨mnemonic, operands⟩ := legible
  have list : Cuts (Bytes.join "," (i.operands.map Operand.print))
      (commas (i.operands.map Operand.atoms)) :=
    join_cuts fun o member rest more ends later =>
      Operand.cuts (List.all_eq_true.mp operands o member) ends later
  by_cases none : i.operands = []
  · have whole : Cuts (i.mnemonic ++ []) [.word i.mnemonic] :=
      Cuts.word mnemonic (by simp [Stops]) (by simp) Cuts.nil
    simpa [Statement.atoms, none, commas] using whole
  · rw [if_neg none]
    refine Cuts.word mnemonic (Stops.cons _ ?_) ?_ (Cuts.blank blank list)
    · rcases blank with rfl | rfl <;> rfl
    · rcases blank with rfl | rfl <;> simp <;> decide

private theorem Statement.cuts {s : Statement} (legible : s.isLegible = true) :
    Cuts s.print s.atoms := by
  cases s with
  | instruction i =>
    have whole := cuts_instruction legible (b := 9) (.inl rfl)
    simp only [Statement.isLegible, Bool.and_eq_true] at legible
    simp only [Statement.print, print_instruction legible.1 legible.2]
    exact Cuts.blank (.inl rfl) whole
  | directive d =>
    simp only [Statement.isLegible, Bool.and_eq_true] at legible
    obtain ⟨name, arguments⟩ := legible
    have list : Cuts (Bytes.join "," (d.arguments.map Argument.print))
        (commas (d.arguments.map Argument.atoms)) :=
      join_cuts fun a member rest more ends later =>
        Argument.cuts (List.all_eq_true.mp arguments a member) ends later
    refine Cuts.blank (.inl rfl) ?_
    unfold Directive.text
    split
    · rename_i none
      have whole : Cuts (d.name ++ []) [.directive d.name] :=
        Cuts.directive name (by simp [Stops]) Cuts.nil
      simpa [Statement.atoms, none, commas] using whole
    · have blank : ∃ b, (b = 9 ∨ b = 32) ∧
          Bytes.ofString (if d.name = sectionDirective then " " else "\t") = [b] := by
        split
        · exact ⟨32, .inr rfl, rfl⟩
        · exact ⟨9, .inl rfl, rfl⟩
      obtain ⟨b, kind, same⟩ := blank
      rw [same, List.append_assoc, List.singleton_append]
      refine Cuts.directive name (Stops.cons _ ?_) (Cuts.blank kind list)
      rcases kind with rfl | rfl <;> rfl

private theorem Line.cuts {l : Line} (legible : l.isLegible = true) : Cuts l.print l.atoms := by
  simp only [Line.isLegible, Bool.and_eq_true] at legible
  obtain ⟨labels, statement⟩ := legible
  have rest : Cuts ((l.statement.map Statement.print).getD [])
      ((l.statement.map Statement.atoms).getD []) := by
    cases same : l.statement with
    | none => exact Cuts.nil
    | some s => exact Statement.cuts (by simpa [same] using statement)
  unfold Line.print Line.atoms
  generalize l.labels = names at labels ⊢
  induction names with
  | nil => exact rest
  | cons name names ih =>
    simp only [List.all_cons, Bool.and_eq_true] at labels
    simpa using Cuts.label labels.1 (ih labels.2)

/-! From atoms back to lines. -/

private theorem splitCommas_item {item : List Atom} (plain : .mark (Bytes.code ',') ∉ item)
    (rest : List Atom) :
    splitCommas (item ++ .mark (Bytes.code ',') :: rest) = item :: splitCommas rest ∧
      splitCommas item = [item] := by
  induction item with
  | nil => simp [splitCommas]
  | cons atom item ih =>
    simp only [List.mem_cons, not_or] at plain
    have other : atom ≠ .mark (Bytes.code ',') := fun same => plain.1 same.symm
    simp [splitCommas, other, ih plain.2]

private theorem splitCommas_commas {items : List (List Atom)} (some : items ≠ [])
    (plain : ∀ item ∈ items, .mark (Bytes.code ',') ∉ item) :
    splitCommas (commas items) = items := by
  induction items with
  | nil => exact absurd rfl some
  | cons item rest ih =>
    have first := plain item (by simp)
    cases rest with
    | nil => exact (splitCommas_item first []).2
    | cons next more =>
      have others := ih (by simp) fun other member => plain other (by simp [member])
      rw [commas, (splitCommas_item first _).1, others]

theorem mapM_map_of_each {α β ε : Type} {read : β → Except ε α} {write : α → β} {items : List α}
    (each : ∀ item ∈ items, read (write item) = .ok item) :
    (items.map write).mapM read = .ok items := by
  induction items with
  | nil => rfl
  | cons item rest ih =>
    have others := ih fun other member => each other (by simp [member])
    rw [List.map_cons, List.mapM_cons, each item (by simp), others]
    rfl

private theorem commaList_commas {α : Type} {first later : List Atom → Except Unreadable α}
    {atoms : α → List Atom} {items : List α}
    (plain : ∀ item ∈ items, .mark (Bytes.code ',') ∉ atoms item)
    (filled : ∀ item ∈ items, atoms item ≠ [])
    (head : ∀ item ∈ items, first (atoms item) = .ok item)
    (tail : ∀ item ∈ items, later (atoms item) = .ok item) :
    commaList first later (commas (items.map atoms)) = .ok items := by
  cases items with
  | nil => rfl
  | cons item rest =>
    have split : splitCommas (commas ((item :: rest).map atoms)) = (item :: rest).map atoms := by
      refine splitCommas_commas (by simp) fun part member => ?_
      obtain ⟨other, known, rfl⟩ := List.mem_map.mp member
      exact plain other known
    have some : commas ((item :: rest).map atoms) ≠ [] := by
      intro none
      rw [none] at split
      have parts : [[]] = atoms item :: rest.map atoms := split
      exact filled item (by simp) (List.cons.inj parts).1.symm
    have others : (rest.map atoms).mapM later = .ok rest :=
      mapM_map_of_each fun other member => tail other (by simp [member])
    unfold commaList
    rw [if_neg some, split]
    simp only [List.map_cons, head item (by simp), others]
    rfl

private theorem integer_decimal {n : Int} (wide : isWide n = true) (bad : Unreadable) :
    integer bad (decimal n) = .ok n := by
  simp only [isWide, Bool.and_eq_true, decide_eq_true_eq] at wide
  simp [integer, Literal.integer?_decimal wide.1 wide.2]

private theorem value_atom {v : Value} (legible : v.isLegible = true) (number : Nat)
    (bad : Unreadable) : value number bad v.atom = .ok v := by
  cases v with
  | number n =>
    simp only [Value.atom, value, integer_decimal legible]
    rfl
  | symbol name => rfl

private theorem operand_atoms {o : Operand} (legible : o.isLegible = true) (number : Nat)
    (bad : Unreadable) : operand number bad o.atoms = .ok o := by
  cases o with
  | immediate v =>
    simp only [Operand.atoms, operand, if_true, value_atom legible]
    rfl
  | register name => rfl
  | absolute v =>
    have read := value_atom legible number bad
    cases v with
    | number n =>
      simp only [Value.atom] at read
      simp only [Operand.atoms, Value.atom, operand, read]
      rfl
    | symbol name => rfl
  | based offset base =>
    simp only [Operand.isLegible, Bool.and_eq_true] at legible
    cases offset with
    | none => rfl
    | some v =>
      have read := value_atom (by simpa using legible.1) number bad
      cases v with
      | number n =>
        simp only [Value.atom] at read
        simp only [Operand.atoms, Value.atom, Option.map_some, Option.toList_some,
          List.singleton_append, operand, read]
        rfl
      | symbol name => rfl

private theorem argument_atoms {a : Argument} (legible : a.isLegible = true) (number : Nat)
    (bad : Unreadable) : argument number bad a.atoms = .ok a := by
  cases a with
  | text contents =>
    simp only [Argument.atoms, argument, Literal.unquote?_quote]
    rfl
  | number n =>
    simp only [Argument.atoms, argument, integer_decimal legible]
    rfl
  | symbol name =>
    by_cases word : isName name = true
    · simp only [Argument.atoms, word, if_true]
      rfl
    · simp only [Argument.atoms, word]
      rfl

private theorem comma_not_mem_operand (o : Operand) : .mark (Bytes.code ',') ∉ o.atoms := by
  have value : ∀ v : Value, .mark (Bytes.code ',') ≠ v.atom := by
    rintro (_ | _) <;> simp [Value.atom]
  have marks : Bytes.code ',' ≠ Bytes.code '$' ∧ Bytes.code ',' ≠ Bytes.code '(' ∧
      Bytes.code ',' ≠ Bytes.code ')' := by
    decide
  rcases o with v | name | v | ⟨_ | v, base⟩ <;> simp [Operand.atoms, value, marks]

private theorem comma_not_mem_argument (a : Argument) : .mark (Bytes.code ',') ∉ a.atoms := by
  cases a with
  | text | number => simp [Argument.atoms]
  | symbol name =>
    by_cases word : isName name = true <;> simp [Argument.atoms, word]

private theorem statement_atoms {s : Statement} (legible : s.isLegible = true) (number : Nat)
    (bad : Unreadable) : statement number bad s.atoms = .ok (some s) := by
  cases s with
  | instruction i =>
    simp only [Statement.isLegible, Bool.and_eq_true, List.all_eq_true] at legible
    have operands : commaList (operand number bad) (operand number (.malformed number))
        (commas (i.operands.map Operand.atoms)) = .ok i.operands :=
      commaList_commas (fun o _ => comma_not_mem_operand o)
        (by rintro (_ | _ | _ | ⟨_ | _, _⟩) _ <;> simp [Operand.atoms])
        (fun o member => operand_atoms (legible.2 o member) ..)
        (fun o member => operand_atoms (legible.2 o member) ..)
    simp only [Statement.atoms, statement, operands]
    rfl
  | directive d =>
    simp only [Statement.isLegible, Bool.and_eq_true, List.all_eq_true] at legible
    have arguments : commaList (argument number bad) (argument number (.badLiteral number))
        (commas (d.arguments.map Argument.atoms)) = .ok d.arguments :=
      commaList_commas (fun a _ => comma_not_mem_argument a)
        (by rintro (_ | _ | _) _ <;> simp [Argument.atoms])
        (fun a member => argument_atoms (legible.2 a member) ..)
        (fun a member => argument_atoms (legible.2 a member) ..)
    simp only [Statement.atoms, statement, arguments]
    rfl

private theorem splitLabels_atoms (l : Line) :
    splitLabels l.atoms = (l.labels, (l.statement.map Statement.atoms).getD []) := by
  unfold Line.atoms
  induction l.labels with
  | nil =>
    cases l.statement with
    | none => rfl
    | some s => cases s <;> rfl
  | cons name names ih => simp [splitLabels, ih]

private theorem line_atoms {l : Line} (legible : l.isLegible = true) (number : Nat) :
    line number l.atoms = .ok l := by
  simp only [Line.isLegible, Bool.and_eq_true] at legible
  have read : ∀ bad, statement number bad ((l.statement.map Statement.atoms).getD []) =
      .ok l.statement := by
    intro bad
    cases same : l.statement with
    | none => rfl
    | some s => exact statement_atoms (by simpa [same] using legible.2) number bad
  simp only [line, splitLabels_atoms, read]
  rfl

/-! Lines end at the newlines of the text and nowhere else. -/

private theorem quote_no_newline (contents : Bytes) : 10 ∉ Literal.quote contents := by
  intro member
  have inside : (10 : UInt8) ∈ contents.flatMap Literal.escapeByte := by
    simpa [Literal.quote] using member
  obtain ⟨b, _, escaped⟩ := List.mem_flatMap.mp inside
  exact Literal.escapeByte_no_newline b escaped

private theorem graphic_no_newline {text : Bytes} (graphic : ∀ b ∈ text, isGraphic b = true) :
    10 ∉ text := by
  intro member
  have impossible := graphic 10 member
  cases impossible

private theorem directive_name_no_newline {name : Bytes} (legible : isDirectiveName name = true) :
    10 ∉ name := by
  match name with
  | [] | [_] => cases legible
  | dot :: first :: letters =>
    simp only [isDirectiveName, Bool.and_eq_true, beq_iff_eq, List.all_eq_true] at legible
    obtain ⟨⟨rfl, letter⟩, all⟩ := legible
    simp only [List.mem_cons, not_or]
    refine ⟨by decide, fun same => ?_, fun member => ?_⟩
    · exact ne_of_kind letter rfl same.symm
    · cases all 10 member

private theorem argument_no_newline {a : Argument} (legible : a.isLegible = true) :
    10 ∉ a.print := by
  cases a with
  | text contents => exact quote_no_newline contents
  | number n => exact graphic_no_newline (isGraphic_decimal n)
  | symbol name =>
    simp only [Argument.isLegible, Bool.or_eq_true] at legible
    rcases legible with word | directive
    · exact graphic_no_newline (isGraphic_name word)
    · exact directive_name_no_newline directive

private theorem join_no_newline {parts : List Bytes} (each : ∀ part ∈ parts, 10 ∉ part) :
    10 ∉ Bytes.join "," parts := by
  have all : ∀ text : Bytes, 10 ∉ text ↔ text.all (· != 10) = true := by
    intro text
    simp only [List.all_eq_true, bne_iff_ne]
    exact ⟨fun none b member same => none (same ▸ member), fun each member => each 10 member rfl⟩
  rw [all]
  exact all_join rfl fun part member => (all part).mp (each part member)

private theorem statement_no_newline {s : Statement} (legible : s.isLegible = true) :
    10 ∉ s.print := by
  cases s with
  | instruction i =>
    simp only [Statement.isLegible, Bool.and_eq_true] at legible
    have word := graphic_no_newline (isGraphic_name legible.1)
    have list : 10 ∉ Bytes.join "," (i.operands.map Operand.print) := by
      refine join_no_newline fun part member => ?_
      obtain ⟨o, known, rfl⟩ := List.mem_map.mp member
      exact graphic_no_newline (isGraphic_operand (List.all_eq_true.mp legible.2 o known))
    simp only [Statement.print, print_instruction legible.1 legible.2]
    split <;> simp [word, list]
  | directive d =>
    simp only [Statement.isLegible, Bool.and_eq_true] at legible
    have name := directive_name_no_newline legible.1
    have list : 10 ∉ Bytes.join "," (d.arguments.map Argument.print) := by
      refine join_no_newline fun part member => ?_
      obtain ⟨a, known, rfl⟩ := List.mem_map.mp member
      exact argument_no_newline (List.all_eq_true.mp legible.2 a known)
    have blank : 10 ∉ Bytes.ofString (if d.name = sectionDirective then " " else "\t") := by
      split <;> decide
    simp only [Statement.print, Directive.print, Directive.text]
    split <;> simp [name, list, blank]

private theorem line_no_newline {l : Line} (legible : l.isLegible = true) : 10 ∉ l.print := by
  simp only [Line.isLegible, Bool.and_eq_true, List.all_eq_true] at legible
  have labels : 10 ∉ l.labels.flatMap fun name => name ++ [Bytes.code ':'] := by
    intro member
    obtain ⟨name, known, inside⟩ := List.mem_flatMap.mp member
    rcases List.mem_append.mp inside with letter | colon
    · exact graphic_no_newline (isGraphic_name (legible.1 name known)) letter
    · cases List.mem_singleton.mp colon
  have statement : 10 ∉ (l.statement.map Statement.print).getD [] := by
    cases same : l.statement with
    | none => simp
    | some s => exact statement_no_newline (by simpa [same] using legible.2)
  simp only [Line.print, List.mem_append, not_or]
  exact ⟨labels, statement⟩

private theorem splitOn_line {text : Bytes} (inside : 10 ∉ text) (rest : Bytes) :
    Bytes.splitOn 10 (text ++ 10 :: rest) = text :: Bytes.splitOn 10 rest := by
  induction text with
  | nil => simp [Bytes.splitOn]
  | cons b text ih =>
    simp only [List.mem_cons, not_or] at inside
    have other : b ≠ 10 := fun same => inside.1 same.symm
    simp [Bytes.splitOn, other, ih inside.2]

private theorem numbered_map {α β γ : Type} {read : Nat → α → Except Unreadable β} {f : γ → α}
    {g : γ → β} {items : List γ}
    (each : ∀ item ∈ items, ∀ number, read number (f item) = .ok (g item)) (number : Nat) :
    numbered read number (items.map f) = .ok (items.map g) := by
  induction items generalizing number with
  | nil => rfl
  | cons item rest ih =>
    have others := ih (fun other member => each other (by simp [member])) (number + 1)
    simp only [List.map_cons, numbered, each item (by simp), others]
    rfl

/-- A text is read as code if every line of the text is cut into the atoms of a line of code. A
blank line follows the last newline. -/
theorem read_of_cuts {write : Line → Bytes} {code : Code}
    (legible : code.all Line.isLegible = true) (cuts : ∀ l ∈ code, Cuts (write l) l.atoms)
    (inside : ∀ l ∈ code, 10 ∉ write l) :
    read (code.flatMap fun l => write l ++ [10]) = .ok (code ++ [Line.blank]) := by
  have pieces : Bytes.splitOn 10 (code.flatMap fun l => write l ++ [10]) =
      code.map write ++ [[]] := by
    clear legible cuts
    induction code with
    | nil => rfl
    | cons line rest ih =>
      rw [List.flatMap_cons, List.append_assoc, List.singleton_append,
        splitOn_line (inside line (by simp)), ih fun l member => inside l (by simp [member])]
      rfl
  have cut : numbered atoms 1 (code.map write ++ [[]]) =
      .ok (code.map Line.atoms ++ [[]]) := by
    have parts := @numbered_map _ _ _ atoms (fun part : Bytes × List Atom => part.1) (·.2)
      ((code.map fun l => (write l, l.atoms)) ++ [([], [])]) (fun part member number => ?_) 1
    · simpa [Function.comp_def] using parts
    · rcases List.mem_append.mp member with line | last
      · obtain ⟨l, known, rfl⟩ := List.mem_map.mp line
        simp only [atoms, cuts l known 0]
      · rw [List.mem_singleton.mp last]
        rfl
  have lines : numbered line 1 ((code ++ [Line.blank]).map Line.atoms) =
      .ok ((code ++ [Line.blank]).map id) := by
    refine numbered_map (fun l member number => ?_) 1
    rcases List.mem_append.mp member with known | last
    · exact line_atoms (List.all_eq_true.mp legible l known) number
    · rw [List.mem_singleton.mp last]
      rfl
  rw [List.map_id, List.map_append] at lines
  simp only [read, pieces, cut]
  exact lines

/-- Printed code is read back, with a blank line after its last newline. -/
theorem read_print {code : Code} (legible : code.all Line.isLegible = true) :
    read (print code) = .ok (code ++ [Line.blank]) :=
  read_of_cuts legible (fun l member => Line.cuts (List.all_eq_true.mp legible l member))
    fun l member => line_no_newline (List.all_eq_true.mp legible l member)

end Onepass.Assembly
