import Onepass.Proofs.Assembly.Agreement
import Onepass.Proofs.Assembly.Reading

/-! Listings assemble to what they list. What the reader accepts is legible, so the names that an
image has for its labels, registers and destinations can be written again. A listing of the labels
and instructions of an image is then code for the text section, whose numbers are those that the
first assembly has worked out. -/
namespace Onepass.Assembly

open Onepass.Machine (Instr Mnemonic RegisterName Word isBranch)

/-! What is read is legible. -/

def Atom.isLegible : Atom → Bool
  | .label name | .word name => isName name
  | .directive name => isDirectiveName name
  | .register name => isRegisterName name
  | .text _ | .integer _ | .mark _ => true

theorem isLegible_of_atomAt? {first : UInt8} {rest : Bytes} {atom : Atom} {length : Nat}
    (found : atomAt? first rest = some (some atom, length)) : atom.isLegible = true := by
  have name (letter : isLetter first = true) :
      isName (first :: rest.takeWhile isNameByte) = true := by
    simp [isName, letter, List.all_takeWhile]
  unfold atomAt? at found
  split at found
  · cases found
  split at found
  · obtain ⟨_, _, same⟩ := Option.map_eq_some_iff.mp found
    cases same
    rfl
  split at found
  · rename_i letter
    split at found <;> cases found <;> exact name letter
  split at found
  · split at found
    · split at found
      · rename_i dot _ b others letter
        cases found
        simp [Atom.isLegible, isDirectiveName, dot, letter, List.all_takeWhile]
      · cases found
    · cases found
  split at found
  · simp only at found
    split at found
    · cases found
    · rename_i some
      cases found
      simp [Atom.isLegible, isRegisterName, some, List.all_takeWhile]
  split at found
  · cases found
    rfl
  split at found
  · simp only at found
    split at found <;> cases found
    rfl
  split at found
  · cases found
    rfl
  split at found <;> cases found

theorem isLegible_of_atomsFrom {skip offset : Nat} {text : Bytes} {atoms : List Atom}
    (cut : atomsFrom skip offset text = .ok atoms) : ∀ a ∈ atoms, a.isLegible = true := by
  induction text generalizing skip offset atoms with
  | nil =>
    cases cut
    simp
  | cons b rest ih =>
    cases skip with
    | succ skip => exact ih cut
    | zero =>
      simp only [atomsFrom] at cut
      split at cut
      · cases cut
      · rename_i atom length found
        obtain ⟨others, later, same⟩ := bind_eq_ok.mp cut
        cases same
        intro a member
        rcases List.mem_append.mp member with here | there
        · cases atom with
          | none => cases here
          | some atom =>
            cases List.mem_singleton.mp here
            exact isLegible_of_atomAt? found
        · exact ih later a there

section

variable {number : Nat} {bad : Unreadable} {atoms : List Atom}

theorem isWide_of_integer {digits : Bytes} {n : Int} (read : integer bad digits = .ok n) :
    isWide n = true := by
  have fits {found : Option Int}
      (known : (found.bind fun n =>
        if -0x8000000000000000 ≤ n ∧ n < 0x8000000000000000 then some n else none) = some n) :
      isWide n = true := by
    obtain ⟨m, _, known⟩ := Option.bind_eq_some_iff.mp known
    split at known
    · rename_i wide
      cases known
      simpa [isWide] using wide
    · cases known
  unfold integer at read
  split at read
  · rename_i found
    cases read
    unfold Literal.integer? at found
    split at found <;> exact fits found
  · cases read

theorem Value.isLegible_of_read {atom : Atom} {v : Value} (read : value number bad atom = .ok v)
    (legible : atom.isLegible = true) : v.isLegible = true := by
  cases atom with
  | integer digits =>
    obtain ⟨n, found, read⟩ := bind_eq_ok.mp read
    cases read
    exact isWide_of_integer found
  | word name =>
    cases read
    exact legible
  | text | label | directive | register | mark => cases read

theorem ending_eq_ok {α : Type} {result found : α} :
    ending number result atoms = .ok found ↔ atoms = [] ∧ found = result := by
  cases atoms with
  | nil => simp [ending, eq_comm]
  | cons => simp [ending]

theorem isRegisterName_of_base {name : Bytes} (read : base number atoms = .ok name)
    (legible : ∀ a ∈ atoms, a.isLegible = true) : isRegisterName name = true := by
  unfold base at read
  split at read
  · split at read
    · obtain ⟨_, rfl⟩ := ending_eq_ok.mp read
      exact legible _ (List.mem_cons_self ..)
    · cases read
  · cases read

theorem Operand.isLegible_of_read {o : Operand} (read : operand number bad atoms = .ok o)
    (legible : ∀ a ∈ atoms, a.isLegible = true) : o.isLegible = true := by
  unfold operand at read
  split at read
  · cases read
  · obtain ⟨_, rfl⟩ := ending_eq_ok.mp read
    exact legible _ (List.mem_cons_self ..)
  · rename_i rest
    split at read
    · split at read
      · obtain ⟨v, found, read⟩ := bind_eq_ok.mp read
        obtain ⟨_, rfl⟩ := ending_eq_ok.mp read
        exact Value.isLegible_of_read found (legible _ (by simp))
      · cases read
    · split at read
      · obtain ⟨name, found, read⟩ := bind_eq_ok.mp read
        cases read
        simpa [Operand.isLegible] using
          isRegisterName_of_base found fun a member => legible a (List.mem_cons_of_mem _ member)
      · cases read
  · obtain ⟨v, found, read⟩ := bind_eq_ok.mp read
    have first := Value.isLegible_of_read found (legible _ (List.mem_cons_self ..))
    split at read
    · cases read
      exact first
    · split at read
      · obtain ⟨name, found, read⟩ := bind_eq_ok.mp read
        cases read
        have register := isRegisterName_of_base found
          fun a member => legible a (List.mem_cons_of_mem _ (List.mem_cons_of_mem _ member))
        simp [Operand.isLegible, first, register]
      · cases read

theorem Argument.isLegible_of_read {a : Argument} (read : argument number bad atoms = .ok a)
    (legible : ∀ a ∈ atoms, a.isLegible = true) : a.isLegible = true := by
  unfold argument at read
  split at read
  · split at read
    · obtain ⟨_, rfl⟩ := ending_eq_ok.mp read
      rfl
    · cases read
  · obtain ⟨n, found, read⟩ := bind_eq_ok.mp read
    obtain ⟨_, rfl⟩ := ending_eq_ok.mp read
    exact isWide_of_integer found
  · obtain ⟨_, rfl⟩ := ending_eq_ok.mp read
    have directive := legible _ (List.mem_cons_self ..)
    simp only [Atom.isLegible] at directive
    simp [Argument.isLegible, directive]
  · obtain ⟨_, rfl⟩ := ending_eq_ok.mp read
    have word := legible _ (List.mem_cons_self ..)
    simp only [Atom.isLegible] at word
    simp [Argument.isLegible, word]
  · cases read

/-- The parts between commas hold no other atoms. -/
theorem mem_of_splitCommas {part : List Atom} (member : part ∈ splitCommas atoms) :
    ∀ a ∈ part, a ∈ atoms := by
  induction atoms generalizing part with
  | nil =>
    cases List.mem_singleton.mp member
    simp
  | cons atom rest ih =>
    intro a inside
    simp only [splitCommas] at member
    split at member
    · rcases List.mem_cons.mp member with rfl | later
      · cases inside
      · exact List.mem_cons_of_mem _ (ih later a inside)
    · split at member
      · cases List.mem_singleton.mp member
        exact List.mem_cons.mpr (.inl (List.mem_singleton.mp inside))
      · rename_i first parts split
        rcases List.mem_cons.mp member with rfl | later
        · rcases List.mem_cons.mp inside with rfl | inside
          · exact List.mem_cons_self ..
          · exact List.mem_cons_of_mem _ (ih (by simp [split]) a inside)
        · exact List.mem_cons_of_mem _ (ih (by simp [split, later]) a inside)

theorem exists_of_mem_mapM {α β ε : Type} {f : α → Except ε β} {inputs : List α}
    {results : List β} (success : inputs.mapM f = .ok results) {b : β} (member : b ∈ results) :
    ∃ a ∈ inputs, f a = .ok b := by
  induction inputs generalizing results with
  | nil =>
    cases success
    cases member
  | cons first rest ih =>
    rw [List.mapM_cons] at success
    obtain ⟨head, found, success⟩ := bind_eq_ok.mp success
    obtain ⟨others, later, success⟩ := bind_eq_ok.mp success
    cases success
    rcases List.mem_cons.mp member with rfl | member
    · exact ⟨first, List.mem_cons_self .., found⟩
    · obtain ⟨a, inside, known⟩ := ih later member
      exact ⟨a, List.mem_cons_of_mem _ inside, known⟩

theorem each_of_commaList {α : Type} {first later : List Atom → Except Unreadable α}
    {holds : α → Prop}
    (each : ∀ part item, (∀ a ∈ part, a ∈ atoms) → first part = .ok item ∨ later part = .ok item →
      holds item)
    {items : List α} (read : commaList first later atoms = .ok items) :
    ∀ item ∈ items, holds item := by
  unfold commaList at read
  split at read
  · cases read
    simp
  · split at read
    · cases read
      simp
    · rename_i part parts split
      obtain ⟨head, found, read⟩ := bind_eq_ok.mp read
      obtain ⟨tail, others, read⟩ := bind_eq_ok.mp read
      cases read
      intro item member
      rcases List.mem_cons.mp member with rfl | later
      · exact each part item (mem_of_splitCommas (by simp [split])) (.inl found)
      · obtain ⟨part, inside, known⟩ := exists_of_mem_mapM others later
        exact each part item (mem_of_splitCommas (by simp [split, inside])) (.inr known)

theorem Statement.isLegible_of_read {s : Statement}
    (read : statement number bad atoms = .ok (some s))
    (legible : ∀ a ∈ atoms, a.isLegible = true) : s.isLegible = true := by
  unfold statement at read
  split at read
  · cases read
  · obtain ⟨arguments, found, read⟩ := bind_eq_ok.mp read
    cases read
    have name := legible _ (List.mem_cons_self ..)
    have each : ∀ a ∈ arguments, a.isLegible = true := by
      refine each_of_commaList (fun part item inside read => ?_) found
      have part := fun a member => legible a (List.mem_cons_of_mem _ (inside a member))
      rcases read with read | read <;> exact Argument.isLegible_of_read read part
    simpa [Statement.isLegible] using ⟨name, each⟩
  · obtain ⟨operands, found, read⟩ := bind_eq_ok.mp read
    cases read
    have name := legible _ (List.mem_cons_self ..)
    have each : ∀ o ∈ operands, o.isLegible = true := by
      refine each_of_commaList (fun part item inside read => ?_) found
      have part := fun a member => legible a (List.mem_cons_of_mem _ (inside a member))
      rcases read with read | read <;> exact Operand.isLegible_of_read read part
    simpa [Statement.isLegible] using ⟨name, each⟩
  · cases read

theorem Line.isLegible_of_read {l : Line} (read : line number atoms = .ok l)
    (legible : ∀ a ∈ atoms, a.isLegible = true) : l.isLegible = true := by
  have parts : (∀ name ∈ (splitLabels atoms).1, isName name = true) ∧
      ∀ a ∈ (splitLabels atoms).2, a.isLegible = true := by
    clear read
    induction atoms with
    | nil => simp [splitLabels]
    | cons atom rest ih =>
      obtain ⟨names, others⟩ := ih fun a member => legible a (List.mem_cons_of_mem _ member)
      cases atom with
      | label name =>
        have first := legible _ (List.mem_cons_self ..)
        simp only [splitLabels, List.mem_cons]
        exact ⟨by rintro _ (rfl | later); exacts [first, names _ later], others⟩
      | text | directive | register | integer | word | mark =>
        exact ⟨by simp [splitLabels], legible⟩
  obtain ⟨found, stated, read⟩ := bind_eq_ok.mp read
  cases read
  simp only [Line.isLegible, Bool.and_eq_true, List.all_eq_true]
  refine ⟨parts.1, ?_⟩
  cases found with
  | none => rfl
  | some s => exact Statement.isLegible_of_read stated parts.2

end

theorem mem_of_numbered {α β : Type} {read : Nat → α → Except Unreadable β} {number : Nat}
    {items : List α} {results : List β} (success : numbered read number items = .ok results) :
    ∀ r ∈ results, ∃ k, ∃ item ∈ items, read k item = .ok r := by
  induction items generalizing number results with
  | nil =>
    cases success
    simp
  | cons item rest ih =>
    obtain ⟨first, found, success⟩ := bind_eq_ok.mp success
    obtain ⟨others, later, success⟩ := bind_eq_ok.mp success
    cases success
    intro r member
    rcases List.mem_cons.mp member with rfl | member
    · exact ⟨number, item, List.mem_cons_self .., found⟩
    · obtain ⟨k, other, inside, known⟩ := ih later r member
      exact ⟨k, other, List.mem_cons_of_mem _ inside, known⟩

/-- The reader only accepts what the printer can write. -/
theorem isLegible_of_read {text : Bytes} {code : Code} (success : read text = .ok code) :
    ∀ l ∈ code, l.isLegible = true := by
  obtain ⟨parts, cut, success⟩ := bind_eq_ok.mp success
  intro l member
  obtain ⟨k, part, inside, found⟩ := mem_of_numbered success l member
  obtain ⟨n, bytes, _, known⟩ := mem_of_numbered cut part inside
  refine Line.isLegible_of_read found ?_
  unfold atoms at known
  split at known
  · rename_i atoms same
    cases known
    exact isLegible_of_atomsFrom same
  · cases known

/-! Decoded instructions as they are written. -/

/-- How a decoded operand is written. -/
def Operand.ofDecoded (o : Machine.Operand) : Operand :=
  match o.mode with
  | .immediate n => .immediate (.number n.toInt)
  | .register name => .register name.name
  | .memory offset none => .absolute (.number offset.toInt)
  | .memory offset (some base) => .based (some (.number offset.toInt)) base.name
  | .target => .absolute (.symbol o.destination.symbol)

def Instruction.ofDecoded (i : Instr) : Instruction :=
  ⟨i.mnemonic.name, i.operands.map Operand.ofDecoded⟩

theorem print_ofDecoded (o : Machine.Operand) : (Operand.ofDecoded o).print = o.print := by
  rcases o with ⟨_ | _ | ⟨_, _ | _⟩ | _, _⟩ <;> rfl

theorem name_ofName (name : Bytes) : (RegisterName.ofName name).name = name := by
  unfold RegisterName.ofName
  split
  · rename_i same
    rw [same]
    rfl
  · split
    · rename_i found
      have same := List.find?_some found
      simpa [RegisterName.name] using same
    · rfl

theorem isWide_toInt (n : Int32) : isWide n.toInt = true := by
  have least := n.le_toInt
  have most := n.toInt_lt
  simp only [isWide, Bool.and_eq_true, decide_eq_true_eq]
  omega

/-- An operand that is no destination does not depend on names once it is decoded. -/
theorem Operand.Denotes.again {address : Bytes → Word → Prop} {o : Operand} {x : Machine.Operand}
    (denotes : o.Denotes address x) (legible : o.isLegible = true) :
    (ofDecoded x).isLegible = true ∧ ∀ l : Layout, l.operand (ofDecoded x) = .ok x := by
  have wide := isWide_toInt
  have zero : isWide 0 = true := rfl
  cases denotes with
  | immediate value =>
    refine ⟨wide _, fun l => ?_⟩
    simp [Machine.Operand.immediate, ofDecoded, Layout.operand, Layout.value, pure, Except.pure]
  | register name =>
    have same := name_ofName name
    refine ⟨by simpa [Machine.Operand.register, ofDecoded, Operand.isLegible, same] using legible,
      fun l => ?_⟩
    simp [Machine.Operand.register, ofDecoded, Layout.operand, same]
  | absolute value =>
    refine ⟨wide _, fun l => ?_⟩
    simp [Machine.Operand.memory, ofDecoded, Layout.operand, Layout.value, pure, Except.pure]
  | indirect base | based value base =>
    have same := name_ofName base
    simp only [Operand.isLegible, Bool.and_eq_true] at legible
    refine ⟨by simp [Machine.Operand.memory, ofDecoded, Operand.isLegible, Value.isLegible, same,
      legible, wide, zero], fun l => ?_⟩
    simp [Machine.Operand.memory, ofDecoded, Layout.operand, Layout.value, pure, Except.pure, same]

/-- A destination depends on the indices of labels only. -/
theorem Operand.Targets.again {index : Bytes → Nat → Prop} {mnemonic : Bytes} {o : Operand}
    {x : Machine.Operand} (targets : o.Targets index mnemonic x) (legible : o.isLegible = true) :
    (ofDecoded x).isLegible = true ∧ ∀ l : Layout,
      (∀ name n, l.label? name = some n ↔ index name n) →
        l.target mnemonic (ofDecoded x) = .ok x := by
  cases targets with
  | inside placed =>
    refine ⟨legible, fun l same => ?_⟩
    simp [Machine.Operand.target, ofDecoded, Layout.target, (same _ _).mpr placed]
  | outside calls unknown =>
    refine ⟨legible, fun l same => ?_⟩
    have missing : l.label? _ = none :=
      Option.eq_none_iff_forall_ne_some.mpr fun n placed => unknown n ((same _ _).mp placed)
    simp [Machine.Operand.target, ofDecoded, Layout.target, missing, calls]

/-- A decoded instruction is legible, and it is decoded to itself where labels have the same
indices. -/
theorem Layout.instruction_again {l : Layout} {number : Nat} {i : Instruction} {instr : Instr}
    (decoded : l.instruction number i = .ok instr)
    (legible : (Statement.instruction i).isLegible = true) :
    (Statement.instruction (.ofDecoded instr)).isLegible = true ∧
      ∀ (other : Layout) (place : Nat), (∀ name, other.label? name = l.label? name) →
        other.instruction place (.ofDecoded instr) = .ok { instr with line := place } := by
  unfold instruction at decoded
  cases known : Mnemonic.ofName? i.mnemonic with
  | none => simp [known] at decoded
  | some mnemonic =>
    have named : mnemonic.name = i.mnemonic := by
      simpa using List.find?_some known
    simp only [known] at decoded
    split at decoded
    · cases decoded
    rename_i count
    obtain ⟨results, mapped, decoded⟩ := bind_eq_ok.mp decoded
    cases decoded
    have length := length_mapM mapped
    simp only [Statement.isLegible, Bool.and_eq_true, List.all_eq_true] at legible
    have each (x : Machine.Operand) (member : x ∈ results) :
        (Operand.ofDecoded x).isLegible = true ∧ ∀ other : Layout,
          (∀ name, other.label? name = l.label? name) →
            (if isBranch i.mnemonic then other.target i.mnemonic else other.operand)
              (.ofDecoded x) = .ok x := by
      obtain ⟨o, inside, found⟩ := exists_of_mem_mapM mapped member
      split at found
      · rename_i branch
        have targets : o.Targets (fun name n => l.label? name = some n) i.mnemonic x :=
          targets_of_target (fun _ _ => Iff.rfl) found
        obtain ⟨fine, again⟩ := targets.again (legible.2 o inside)
        refine ⟨fine, fun other same => ?_⟩
        rw [if_pos branch]
        exact again other fun name n => by rw [same]
      · rename_i plain
        have denotes : o.Denotes (fun name a => l.symbol? name = some a) x :=
          denotes_of_operand (fun _ _ => id) found
        obtain ⟨fine, again⟩ := denotes.again (legible.2 o inside)
        refine ⟨fine, fun other _ => ?_⟩
        rw [if_neg plain]
        exact again other
    constructor
    · simp only [Statement.isLegible, Instruction.ofDecoded, named, legible.1, Bool.true_and,
        List.all_map, List.all_eq_true, Function.comp_apply]
      exact fun x member => (each x member).1
    · intro other place same
      have again := mapM_map_of_each fun x member => (each x member).2 other same
      simp only [instruction, Instruction.ofDecoded, named, known, List.length_map, length, count,
        if_false, again]
      rfl

/-! The text of a listing. -/

theorem lt_of_isGraphic {b : UInt8} (graphic : isGraphic b = true) : b < 0x80 := by
  simp only [isGraphic, Bool.and_eq_true, decide_eq_true_eq, UInt8.le_iff_toNat_le] at graphic
  have most : b.toNat ≤ 126 := graphic.1.2
  rw [UInt8.lt_iff_toNat_lt]
  exact Nat.lt_of_le_of_lt most (by decide)

theorem isBlank_of_isGraphic {b : UInt8} (graphic : isGraphic b = true) :
    Text.isBlank (Char.ofNat b.toNat) = false := by
  simp only [isGraphic, Bool.and_eq_true, decide_eq_true_eq, UInt8.le_iff_toNat_le] at graphic
  have least : 33 ≤ b.toNat := graphic.1.1
  have most : b.toNat ≤ 126 := graphic.1.2
  have all : ∀ n, 33 ≤ n → n ≤ 126 → Text.isBlank (Char.ofNat n) = false := by decide
  exact all _ least most

/-- Trimming takes blank bytes from both ends of ASCII text. -/
theorem trim_ascii {text : Bytes} (ascii : ∀ b ∈ text, b < 0x80) :
    let gone (b : UInt8) := Text.isBlank (Char.ofNat b.toNat)
    Text.trim text = ((text.dropWhile gone).reverse.dropWhile gone).reverse := by
  intro gone
  unfold Text.trim
  simp only [Utf8.segments_ascii ascii, List.dropWhile_map, ← List.map_reverse, Function.comp_def,
    List.flatMap_map]
  exact List.flatMap_singleton' _

/-- Trimming a text that starts and ends with visible bytes takes away the spaces after it. -/
theorem trim_append_spaces {text spaces : Bytes} (some : text ≠ []) (ascii : ∀ b ∈ text, b < 0x80)
    (first : ∀ b ∈ text.head?, isGraphic b = true) (last : ∀ b ∈ text.getLast?, isGraphic b = true)
    (blank : ∀ b ∈ spaces, b = 32) : Text.trim (text ++ spaces) = text := by
  have bytes : ∀ b ∈ text ++ spaces, b < 0x80 := by
    intro b member
    rcases List.mem_append.mp member with inside | after
    · exact ascii b inside
    · rw [blank b after]
      decide
  have kept {bytes : Bytes} (head : ∀ b ∈ bytes.head?, isGraphic b = true) :
      bytes.dropWhile (fun b => Text.isBlank (Char.ofNat b.toNat)) = bytes := by
    cases bytes with
    | nil => rfl
    | cons b rest =>
      have visible := isBlank_of_isGraphic (head b rfl)
      exact List.dropWhile_cons_of_neg (by simp [visible])
  have front := @kept (text ++ spaces) fun b head => by
    rw [List.head?_append_of_ne_nil _ some] at head
    exact first b head
  rw [trim_ascii bytes, front, List.reverse_append, List.dropWhile_append_of_pos, kept,
    List.reverse_reverse]
  · intro b head
    rw [List.head?_reverse] at head
    exact last b head
  · intro b member
    rw [blank b (List.mem_reverse.mp member)]
    decide

theorem print_ne_nil {o : Operand} (legible : o.isLegible = true) : o.print ≠ [] := by
  have value {v : Value} (legible : v.isLegible = true) : v.print ≠ [] := by
    cases v with
    | number n =>
      change Numeral.decimal n ≠ []
      unfold Numeral.decimal
      split
      · exact List.cons_ne_nil _ _
      · exact Numeral.natural_ne_nil _ _
    | symbol name =>
      rintro rfl
      cases legible
  cases o with
  | immediate v => simp [Operand.print, value legible]
  | register name => exact List.cons_ne_nil _ _
  | absolute v => exact value legible
  | based offset base =>
    have opening : Bytes.ofString "(%" ≠ [] := List.cons_ne_nil _ _
    simp [Operand.print, opening]

/-- The line of an instruction in a listing. -/
theorem print_eq_text {i : Instr}
    (legible : (Statement.instruction (.ofDecoded i)).isLegible = true) :
    i.print = (Instruction.ofDecoded i).text := by
  simp only [Statement.isLegible, Bool.and_eq_true] at legible
  obtain ⟨mnemonic, operands⟩ := legible
  have same : i.operands.map Machine.Operand.print =
      (i.operands.map Operand.ofDecoded).map Operand.print := by
    simp [print_ofDecoded]
  have word := isGraphic_name mnemonic
  have some : i.mnemonic.name ≠ [] := by
    intro none
    rw [Instruction.ofDecoded, none] at mnemonic
    cases mnemonic
  have list := List.all_eq_true.mp (isGraphic_operands operands)
  have first : ∀ rest, ∀ b ∈ (i.mnemonic.name ++ rest).head?, isGraphic b = true := by
    intro rest b head
    rw [List.head?_append_of_ne_nil _ some] at head
    exact word b (List.mem_of_head? head)
  unfold Instr.print Instruction.text
  rw [same]
  cases none : i.operands with
  | nil =>
    simp only [Instruction.ofDecoded, none, List.map_nil, Bytes.join, List.append_nil]
    refine trim_append_spaces some (fun b member => lt_of_isGraphic (word b member))
      (by simpa using first []) (fun b last => word b (List.mem_of_getLast? last)) ?_
    intro b member
    exact List.mem_singleton.mp member
  | cons o others =>
    simp only [Instruction.ofDecoded, none, List.map_cons, List.all_cons,
      Bool.and_eq_true] at operands list ⊢
    generalize joined : Bytes.join "," (_ :: _) = list' at list ⊢
    have filled : list' ≠ [] := by
      have print := print_ne_nil operands.1
      rw [← joined]
      cases others with
      | nil => simpa [Bytes.join] using print
      | cons next more => simp [Bytes.join, print]
    have space : Bytes.ofString " " = [32] := rfl
    have whole := @trim_append_spaces (i.mnemonic.name ++ Bytes.ofString " " ++ list') []
      (by simp [some]) ?_ ?_ ?_ (by simp)
    · simpa using whole
    · intro b member
      simp only [List.mem_append, space, List.mem_singleton] at member
      rcases member with (letter | rfl) | inside
      · exact lt_of_isGraphic (word b letter)
      · decide
      · exact lt_of_isGraphic (list b inside)
    · simpa using first (Bytes.ofString " " ++ list')
    · intro b last
      rw [List.getLast?_append_of_ne_nil _ filled] at last
      exact list b (List.mem_of_getLast? last)

/-! Listings. -/

/-- The labels that stand for an index. -/
def labelsAt (labels : List (Bytes × Nat)) (index : Nat) : List Bytes :=
  (labels.filter (·.2 = index)).map Prod.fst

/-- A listing of instructions from an index on. Labels stand before the instruction that they stand
for, in the order in which they are given. -/
def listing (labels : List (Bytes × Nat)) : (index : Nat) → List Instr → Bytes
  | index, [] => (labelsAt labels index).flatMap fun name => name ++ (":\n" : Bytes)
  | index, i :: rest =>
    ((labelsAt labels index).flatMap fun name => name ++ (":\n" : Bytes)) ++
      i.print ++ ("\n" : Bytes) ++ listing labels (index + 1) rest

/-- The lines of a listing. -/
def listed (labels : List (Bytes × Nat)) : (index : Nat) → List Instr → Code
  | index, [] => (labelsAt labels index).map .label
  | index, i :: rest =>
    (labelsAt labels index).map .label ++
      ⟨[], some (.instruction (.ofDecoded i))⟩ :: listed labels (index + 1) rest

/-- A line as listings show it, without indentation. -/
def Line.shown (l : Line) : Bytes :=
  (l.labels.flatMap fun name => name ++ [Bytes.code ':']) ++
    match l.statement with
    | some (.instruction i) => i.text
    | some (.directive d) => d.text
    | none => []

section

variable {labels : List (Bytes × Nat)} {index : Nat} {text : List Instr} {l : Line}

theorem mem_labelsAt {name : Bytes} : name ∈ labelsAt labels index ↔ (name, index) ∈ labels := by
  simp [labelsAt]

theorem mem_listed (member : l ∈ listed labels index text) :
    (∃ label ∈ labels, l = .label label.1) ∨
      ∃ i ∈ text, l = ⟨[], some (.instruction (.ofDecoded i))⟩ := by
  have label {index : Nat} (member : l ∈ (labelsAt labels index).map Line.label) :
      ∃ label ∈ labels, l = .label label.1 := by
    obtain ⟨name, inside, rfl⟩ := List.mem_map.mp member
    exact ⟨(name, index), mem_labelsAt.mp inside, rfl⟩
  induction text generalizing index with
  | nil => exact .inl (label member)
  | cons i rest ih =>
    rcases List.mem_append.mp member with before | member
    · exact .inl (label before)
    rcases List.mem_cons.mp member with rfl | later
    · exact .inr ⟨i, List.mem_cons_self .., rfl⟩
    · exact (ih later).imp_right fun ⟨other, inside, same⟩ =>
        ⟨other, List.mem_cons_of_mem _ inside, same⟩

theorem places_labels (names : List Bytes) (index : Nat) (rest : Code) :
    Code.places index (names.map Line.label ++ rest) =
      names.map (·, index) ++ rest.places index := by
  induction names with
  | nil => rfl
  | cons name others ih => simp [Line.label, Code.places, ← ih]

theorem map_labelsAt (labels : List (Bytes × Nat)) (index : Nat) :
    (labelsAt labels index).map (·, index) = labels.filter (·.2 = index) := by
  rw [labelsAt, List.map_map]
  refine (List.map_congr_left fun label member => ?_).trans (List.map_id _)
  have same : label.2 = index := by simpa using (List.mem_filter.mp member).2
  rw [← same]
  rfl

/-- The labels of a listing stand for the same indices as before. -/
theorem perm_places (labels : List (Bytes × Nat)) (index : Nat) (text : List Instr) :
    ((listed labels index text).places index).Perm
      (labels.filter fun label => index ≤ label.2 ∧ label.2 ≤ index + text.length) := by
  induction text generalizing index with
  | nil =>
    have whole := places_labels (labelsAt labels index) index []
    simp only [List.append_nil, Code.places, map_labelsAt] at whole
    rw [listed, whole]
    refine List.Perm.of_eq (List.filter_congr fun label _ => ?_)
    simp only [List.length_nil, decide_eq_decide]
    omega
  | cons i rest ih =>
    rw [listed, places_labels, map_labelsAt]
    refine ((ih (index + 1)).append_left _).trans ?_
    -- The labels of the first index come before the others.
    have parts := List.filter_append_perm (fun label : Bytes × Nat => decide (label.2 = index))
      (labels.filter fun label => index ≤ label.2 ∧ label.2 ≤ index + (i :: rest).length)
    rw [List.filter_filter, List.filter_filter] at parts
    refine (List.Perm.of_eq ?_).trans parts
    congr 1 <;> refine List.filter_congr fun label _ => ?_
    · rw [← Bool.decide_and, decide_eq_decide, List.length_cons]
      omega
    · rw [← decide_not, ← Bool.decide_and, decide_eq_decide, List.length_cons]
      omega

/-- A listing is read as its lines. -/
theorem read_listing (names : ∀ label ∈ labels, isName label.1 = true)
    (legible : ∀ i ∈ text, (Statement.instruction (.ofDecoded i)).isLegible = true) :
    read (listing labels index text) = .ok (listed labels index text ++ [.blank]) := by
  have shown : listing labels index text =
      (listed labels index text).flatMap fun l => l.shown ++ [10] := by
    have label : ∀ name : Bytes,
        (Line.label name).shown ++ [10] = name ++ Bytes.ofString ":\n" := by
      intro name
      have mark : Bytes.ofString ":\n" = [Bytes.code ':', 10] := rfl
      simp [Line.shown, Line.label, mark]
    have stated : ∀ i, (⟨[], some (.instruction i)⟩ : Line).shown = i.text := by
      intro i
      simp [Line.shown]
    have newline : Bytes.ofString "\n" = [10] := rfl
    induction text generalizing index with
    | nil => simp [listing, listed, List.flatMap_map, label]
    | cons i rest ih =>
      have later := @ih (index + 1) fun i member => legible i (List.mem_cons_of_mem _ member)
      have here := print_eq_text (legible i (List.mem_cons_self ..))
      simp [listing, listed, List.flatMap_map, label, later, here, stated, newline]
  rw [shown]
  refine read_of_cuts (List.all_eq_true.mpr fun l member => ?_) (fun l member => ?_)
    fun l member => ?_
  · rcases mem_listed member with ⟨label, inside, rfl⟩ | ⟨i, inside, rfl⟩
    · simp [Line.isLegible, Line.label, names label inside]
    · simp [Line.isLegible, legible i inside]
  · rcases mem_listed member with ⟨label, inside, rfl⟩ | ⟨i, inside, rfl⟩
    · simpa [Line.shown, Line.label, Line.atoms] using Cuts.label (names label inside) Cuts.nil
    · have whole := cuts_instruction (legible i inside) (b := 32) (.inr rfl)
      rw [← text_eq] at whole
      simpa [Line.shown, Line.atoms] using whole
  · rcases mem_listed member with ⟨label, inside, rfl⟩ | ⟨i, inside, rfl⟩
    · intro newline
      simp only [Line.shown, Line.label, List.flatMap_singleton, List.append_nil, List.mem_append,
        List.mem_singleton] at newline
      rcases newline with inside' | mark
      · cases isGraphic_name (names label inside) 10 inside'
      · cases mark
    · have fine := legible i inside
      simp only [Statement.isLegible, Bool.and_eq_true] at fine
      intro newline
      simp only [Line.shown, List.flatMap_nil, List.nil_append] at newline
      cases isPlain_instruction fine.1 fine.2 10 newline

/-- The second pass over a listing gives the instructions back. -/
theorem lines_listed {l : Layout} {image : Image} {number : Nat}
    (decodes : ∀ i ∈ text, ∀ place : Nat,
      l.instruction place (.ofDecoded i) = .ok { i with line := place }) :
    ∃ after, Image.lines l image number (listed labels index text) = .ok after ∧
      after.text.toList.map (fun i => { i with line := 0 }) =
        (image.text.toList ++ text).map (fun i => { i with line := 0 }) ∧
      after.data = image.data ∧ after.symbols = image.symbols ∧ after.labels = image.labels ∧
      after.globals = image.globals := by
  have pass (names : List Bytes) (rest : Code) (image : Image) (number : Nat) :
      Image.lines l image number (names.map Line.label ++ rest) =
        Image.lines l image (number + names.length) rest := by
    induction names generalizing number with
    | nil => rfl
    | cons name others ih =>
      simp only [List.map_cons, List.cons_append, Image.lines, Line.label, ih, List.length_cons]
      congr 1
      omega
  induction text generalizing image number index with
  | nil =>
    have whole := pass (labelsAt labels index) [] image number
    rw [List.append_nil] at whole
    exact ⟨image, whole, by simp, rfl, rfl, rfl, rfl⟩
  | cons i rest ih =>
    have here := decodes i (List.mem_cons_self ..) (number + (labelsAt labels index).length)
    let instr : Instr := { i with line := (number + (labelsAt labels index).length : Nat) }
    obtain ⟨after, done, same, others⟩ := @ih (index + 1)
      { image with text := image.text.push instr } (number + (labelsAt labels index).length + 1)
      fun i member => decodes i (List.mem_cons_of_mem _ member)
    refine ⟨after, ?_, ?_, others⟩
    · rw [listed, pass]
      simp only [Image.lines, Image.statement, here, ok_bind]
      exact done
    · rw [same]
      simp [instr]

end

/-! The labels of an image. -/

/-- What a first pass knows of its labels. -/
structure Layout.IsOrdered (l : Layout) : Prop where
  distinct : (l.labels.map Prod.fst).Nodup
  names : ∀ label ∈ l.labels, isName label.1 = true
  indices : ∀ label ∈ l.labels, label.2 ≤ l.count

namespace Layout

variable {l after : Layout}

theorem isOrdered_define {name : Bytes} (ordered : l.IsOrdered) (legible : isName name = true)
    (success : l.define name = .ok after) : after.IsOrdered := by
  unfold define at success
  split at success
  · cases success
  rename_i new
  simp only [Bool.or_eq_true, not_or, Bool.not_eq_true, Option.isSome_eq_false_iff,
    Option.isNone_iff_eq_none] at new
  have absent : name ∉ l.labels.map Prod.fst := by
    intro member
    obtain ⟨label, inside, rfl⟩ := List.mem_map.mp member
    have missing := List.lookup_eq_none_iff.mp new.1 label inside
    simp at missing
  split at success <;> cases success
  · refine ⟨List.nodup_cons.mpr ⟨absent, ordered.distinct⟩, ?_, ?_⟩
    · rintro label member
      rcases List.mem_cons.mp member with rfl | member
      exacts [legible, ordered.names label member]
    · rintro label member
      rcases List.mem_cons.mp member with rfl | member
      exacts [le_rfl, ordered.indices label member]
  · exact ⟨ordered.distinct, ordered.names, ordered.indices⟩

theorem isOrdered_labels {names : List Bytes} (ordered : l.IsOrdered)
    (legible : ∀ name ∈ names, isName name = true) (success : names.foldlM define l = .ok after) :
    after.IsOrdered := by
  induction names generalizing l with
  | nil =>
    cases success
    exact ordered
  | cons first rest ih =>
    obtain ⟨middle, defined, others⟩ := bind_eq_ok.mp success
    exact ih (isOrdered_define ordered (legible first (List.mem_cons_self ..)) defined)
      (fun name member => legible name (List.mem_cons_of_mem _ member)) others

theorem isOrdered_statement {s : Statement} (ordered : l.IsOrdered)
    (success : l.statement s = .ok after) : after.IsOrdered := by
  cases s with
  | directive d =>
    obtain ⟨_, _, success⟩ := bind_eq_ok.mp success
    obtain ⟨_, _, success⟩ := bind_eq_ok.mp success
    split at success <;> cases success
    exact ⟨ordered.distinct, ordered.names, ordered.indices⟩
  | instruction i =>
    simp only [statement] at success
    split at success <;> cases success
    exact ⟨ordered.distinct, ordered.names,
      fun label member => Nat.le_succ_of_le (ordered.indices label member)⟩

/-- Over legible code, labels are names that differ and stand for instructions or for the end. -/
theorem isOrdered_lines {code : Code} {number : Nat} (ordered : l.IsOrdered)
    (legible : ∀ line ∈ code, line.isLegible = true) (success : l.lines number code = .ok after) :
    after.IsOrdered := by
  induction code generalizing l number with
  | nil =>
    cases success
    exact ordered
  | cons first rest ih =>
    obtain ⟨middle, moved, later⟩ := lines_cons_eq_ok.mp success
    obtain ⟨labelled, defined, moved⟩ := line_eq_ok.mp moved
    have names := legible first (List.mem_cons_self ..)
    simp only [Line.isLegible, Bool.and_eq_true, List.all_eq_true] at names
    have kept := isOrdered_labels ordered names.1 defined
    refine ih ?_ (fun line member => legible line (List.mem_cons_of_mem _ member)) later
    cases found : first.statement with
    | none =>
      rw [found] at moved
      cases moved
      exact kept
    | some s =>
      rw [found] at moved
      exact isOrdered_statement kept moved

end Layout

theorem lookup_eq_some_iff_mem {labels : List (Bytes × Nat)}
    (distinct : (labels.map Prod.fst).Nodup) {name : Bytes} {index : Nat} :
    labels.lookup name = some index ↔ (name, index) ∈ labels := by
  induction labels with
  | nil => simp
  | cons label rest ih =>
    obtain ⟨new, distinct⟩ := List.nodup_cons.mp distinct
    by_cases same : name = label.1
    · subst same
      have absent : (label.1, index) ∉ rest := fun member => new (List.mem_map.mpr ⟨_, member, rfl⟩)
      simp [List.lookup, absent, Prod.ext_iff, eq_comm]
    · have differ : (name == label.1) = false := beq_eq_false_iff_ne.mpr same
      simp [List.lookup, differ, ih distinct, Prod.ext_iff, same]

theorem lookup_of_perm {first second : List (Bytes × Nat)} (perm : first.Perm second)
    (distinct : (second.map Prod.fst).Nodup) (name : Bytes) :
    first.lookup name = second.lookup name := by
  have both := (perm.map Prod.fst).nodup_iff.mpr distinct
  refine Option.ext fun index => ?_
  rw [lookup_eq_some_iff_mem both, lookup_eq_some_iff_mem distinct, perm.mem_iff]

/-- Listed code assembles to what is listed, if its instructions can be decoded. -/
theorem ofCode_listed {labels : List (Bytes × Nat)} {text : List Instr}
    (distinct : (labels.map Prod.fst).Nodup) (indices : ∀ label ∈ labels, label.2 ≤ text.length)
    (decodes : ∀ l : Layout, (∀ name, l.label? name = labels.lookup name) → ∀ i ∈ text,
      ∀ place : Nat, l.instruction place (.ofDecoded i) = .ok { i with line := place }) :
    ∃ again, Image.ofCode (listed labels 0 text ++ [.blank]) = .ok again ∧
      again.labels.Perm labels ∧
      again.text.toList.map (fun i => { i with line := 0 }) =
        text.map (fun i => { i with line := 0 }) ∧
      again.data = #[] ∧ again.symbols = [] ∧ again.globals = [] := by
  have places : ((listed labels 0 text).places 0).Perm labels := by
    refine (perm_places labels 0 text).trans (List.Perm.of_eq (List.filter_eq_self.mpr ?_))
    intro label member
    simpa using indices label member
  have ended : Code.places 0 (listed labels 0 text ++ [Line.blank]) = (listed labels 0 text).places 0 := by
    rw [places_append]
    exact List.append_nil _
  have names : (Code.labels (listed labels 0 text ++ [Line.blank])).Nodup := by
    rw [← map_fst_places 0, ended]
    exact (places.map Prod.fst).nodup_iff.mpr distinct
  have plain : (listed labels 0 text ++ [Line.blank]).all Line.isText = true := by
    refine List.all_eq_true.mpr fun l member => ?_
    rcases List.mem_append.mp member with inside | last
    · rcases mem_listed inside with ⟨_, _, rfl⟩ | ⟨_, _, rfl⟩ <;> rfl
    · rw [List.mem_singleton.mp last]
      rfl
  have first := @Layout.lines_text {} 1 _ rfl plain (fun _ _ => ⟨rfl, rfl⟩) names
  rw [ended, List.append_nil] at first
  generalize final : ({ ({} : Layout) with
    count := ({} : Layout).count + Code.instructions (listed labels 0 text ++ [.blank])
    labels := ((listed labels 0 text).places 0).reverse } : Layout) = layout at first
  have known : layout.labels.Perm labels := by
    rw [← final]
    exact (List.reverse_perm _).trans places
  obtain ⟨again, second, same, data, symbols, kept, globals⟩ :=
    @lines_listed labels 0 text layout (.start layout) 1
      (decodes layout fun name => lookup_of_perm known distinct name)
  refine ⟨again, ?_, ?_, same, data, ?_, globals⟩
  · rw [Image.ofCode, Layout.ofCode, first, ok_bind]
    exact Image.lines_append_eq_ok.mpr ⟨again, second, rfl⟩
  · rw [kept]
    exact known
  · rw [symbols, ← final]
    rfl

/-- A listing of an image assembles: to the same labels and to the same instructions, with other
line numbers, and to no data. -/
theorem assemble_listing {text : Bytes} {image : Image} (success : assemble text = .ok image)
    {labels : List (Bytes × Nat)} (order : labels.Perm image.labels) :
    ∃ again, assemble (listing labels 0 image.text.toList) = .ok again ∧
      again.labels.Perm image.labels ∧
      (∀ name, again.labels.lookup name = image.labels.lookup name) ∧
      again.text.toList.map (fun i => { i with line := 0 }) =
        image.text.toList.map (fun i => { i with line := 0 }) ∧
      again.data = #[] ∧ again.symbols = [] ∧ again.globals = [] := by
  -- What the first assembly has established.
  unfold assemble at success
  split at success
  · cases success
  rename_i code reads
  have legible := isLegible_of_read reads
  obtain ⟨final, first, second⟩ := bind_eq_ok.mp success
  have count : final.count = image.text.size :=
    ((⟨rfl, rfl⟩ : Agree {} (.start final)).lines first second).count
  obtain ⟨known, -, -, comes⟩ := Image.added_lines second
  replace known : image.labels = final.labels := known
  obtain ⟨distinct, names, indices⟩ := Layout.isOrdered_lines (l := {})
    ⟨List.nodup_nil, by simp, by simp⟩ legible first
  have again : ∀ i ∈ image.text.toList,
      (Statement.instruction (.ofDecoded i)).isLegible = true ∧
        ∀ (other : Layout) (place : Nat), (∀ name, other.label? name = final.label? name) →
          other.instruction place (.ofDecoded i) = .ok { i with line := place } := by
    intro i member
    rcases comes i (Array.mem_toList_iff.mp member) with none | ⟨line, inside, s, _, here, found⟩
    · exact absurd none (Array.not_mem_empty i)
    · have fine := legible line inside
      simp only [Line.isLegible, here, Bool.and_eq_true] at fine
      exact Layout.instruction_again found fine.2
  -- What it has established holds in every order of the labels.
  rw [known] at order ⊢
  have ordered := (order.map Prod.fst).nodup_iff.mpr distinct
  have read := @read_listing labels 0 image.text.toList
    (fun label member => names label (order.mem_iff.mp member)) fun i member => (again i member).1
  obtain ⟨result, done, perm, same, others⟩ := @ofCode_listed labels image.text.toList ordered
    (fun label member => by
      rw [Array.length_toList, ← count]
      exact indices label (order.mem_iff.mp member))
    fun l labels i member place => (again i member).2 l place fun name => by
      rw [labels, Layout.label?, lookup_of_perm order distinct]
  refine ⟨result, ?_, perm.trans order, ?_, same, others⟩
  · rw [assemble, read]
    exact done
  · exact lookup_of_perm (perm.trans order) distinct

/-- Two labels of one instruction and one of the end, an address of data, an octal offset, a base
without an offset, an unknown register, and calls inside and outside of the program. -/
private def sample : Bytes :=
  Bytes.ofString "\t.data\nx:\t.long 7\n\t.text\nmain: other: movl $x,%eax\n" ++
    Bytes.ofString "movl 010(%ebp),%ecx\naddl (%eax),%foo\ncmpl $-1,x\n" ++
    Bytes.ofString "jne end\ncall main\ncall printf\nend:\n"

theorem assemble_listing_sample :
    ∃ image, assemble sample = .ok image ∧ image.text.size = 7 ∧ image.labels.length = 3 ∧
      ∃ again, assemble (listing image.labels.reverse 0 image.text.toList) = .ok again ∧
        again.labels.lookup (Bytes.ofString "end") = some 7 := by
  have fine : ((assemble sample).toOption.map fun image =>
      (image.text.size, image.labels.length, image.labels.lookup (Bytes.ofString "end"))) =
        some (7, 3, some 7) := by decide +kernel
  cases success : assemble sample with
  | error fault =>
    rw [success] at fine
    cases fine
  | ok image =>
    rw [success] at fine
    simp only [Except.toOption, Option.map_some, Option.some.injEq, Prod.mk.injEq] at fine
    obtain ⟨size, length, last⟩ := fine
    obtain ⟨again, done, _, lookups, _⟩ :=
      assemble_listing success (List.reverse_perm image.labels)
    exact ⟨image, rfl, size, length, again, done, (lookups _).trans last⟩

end Onepass.Assembly
