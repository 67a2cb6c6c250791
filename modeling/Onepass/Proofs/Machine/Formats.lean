import Onepass.Proofs.Machine.Texts

/-! Printing by a format. A format consists of bytes that stand for themselves and of conversions,
which show the arguments one after the other. Everything is read before anything is written, so that
the routine writes the whole text at once or changes nothing. -/
namespace Onepass.Machine

open Routine (argumentAddress)

/-- A piece of a format. -/
inductive Piece
  /-- A byte that is shown. -/
  | byte (b : UInt8)
  /-- An argument that is shown by a letter. -/
  | conversion (letter : UInt8)
deriving DecidableEq

namespace Piece

/-- The pieces of a format. A percent sign makes a conversion with the letter after it, but two percent
signs stand for one, and a percent sign at the end for itself. -/
def ofFormat : Bytes → List Piece
  | [] => []
  | [b] => [.byte b]
  | b :: letter :: rest =>
    if b ≠ Bytes.code '%' then .byte b :: ofFormat (letter :: rest)
    else if letter = Bytes.code '%' then .byte letter :: ofFormat rest
    else .conversion letter :: ofFormat rest

theorem ofFormat_cons {b : UInt8} (other : b ≠ Bytes.code '%') (rest : Bytes) :
    ofFormat (b :: rest) = .byte b :: ofFormat rest := by
  cases rest with
  | nil => rfl
  | cons letter rest => rw [ofFormat, if_pos other]

/-- The letter of a conversion. -/
def letter? : Piece → Option UInt8
  | .conversion letter => some letter
  | _ => none

/-- The letters of the conversions with the indexes of their arguments, which are counted from
`next`. -/
def conversions (next : Nat) (pieces : List Piece) : List (UInt8 × Nat) :=
  (pieces.filterMap letter?).zipIdx next

/-- The text of the pieces, given those of the conversions. -/
def fill : List Piece → List Bytes → Bytes
  | [], _ => []
  | .byte b :: rest, shown => b :: fill rest shown
  | .conversion _ :: rest, text :: shown => text ++ fill rest shown
  | .conversion _ :: rest, [] => fill rest []

end Piece

/-- What a letter shows of the word at an address: the signed number, the low byte, or the text that
the word is the address of. -/
inductive Shows (m : Machine) (a : Word) : UInt8 → Bytes → Prop
  | number (fine : accessible a 4 = true) :
    Shows m a (Bytes.code 'd') (Numeral.decimal (m.memory.readWord a).toInt)
  | byte (fine : accessible a 4 = true) :
    Shows m a (Bytes.code 'c') [(m.memory.readWord a).toUInt8]
  | text {shown : Bytes} (fine : accessible a 4 = true)
      (has : HasText m (m.memory.readWord a) shown) : Shows m a (Bytes.code 's') shown

/-- Why a letter shows nothing of the word at an address: the word or its text cannot be read, or the
letter is that of no conversion. -/
inductive Hides (m : Machine) (a : Word) : UInt8 → Prop
  | word {letter : UInt8} (fault : accessible a 4 = false) : Hides m a letter
  | text (missing : ∀ shown, ¬ HasText m (m.memory.readWord a) shown) : Hides m a (Bytes.code 's')
  | letter {letter : UInt8}
      (unknown : letter ∉ [Bytes.code 'd', Bytes.code 'c', Bytes.code 's']) : Hides m a letter

/-- Whether a text is that of the pieces, where every conversion is replaced by what it shows of its
argument. The arguments are counted from `next`. -/
def Expands (m : Machine) (next : Nat) (pieces : List Piece) (text : Bytes) : Prop :=
  ∃ shown, List.Forall₂ (fun c => Shows m (argumentAddress m c.2) c.1)
    (Piece.conversions next pieces) shown ∧ text = Piece.fill pieces shown

/-- Whether a format stands where the word on top of the stack points. -/
def HasFormat (m : Machine) (format : Bytes) : Prop :=
  accessible m.registers.esp 4 = true ∧ HasText m (m.memory.readWord m.registers.esp) format

/-- Why nothing is printed: there is no format, or one of its conversions shows nothing. -/
inductive Refuses (m : Machine) : Prop
  | format (missing : ∀ format, ¬ HasFormat m format)
  | argument {format : Bytes} {letter : UInt8} {index : Nat} (has : HasFormat m format)
      (used : (letter, index) ∈ Piece.conversions 1 (Piece.ofFormat format))
      (hides : Hides m (argumentAddress m index) letter)

section

variable {m : Machine} {a : Word} {letter : UInt8} {index next : Nat} {format text : Bytes}

theorem argument_eq_ok_iff {v : Word} :
    Routine.argument m index = .ok v ↔
      accessible (argumentAddress m index) 4 = true ∧
        m.memory.readWord (argumentAddress m index) = v := by
  change m.readWord (argumentAddress m index) = .ok v ↔ _
  cases fine : accessible (argumentAddress m index) 4 with
  | false => simp [readWord_fault fine]
  | true => simp [readWord_eq fine]

/-- The format that is read is the one in memory. -/
theorem readFormat_eq_ok_iff :
    (do m.readText (← Routine.argument m 0) : Except Fault Bytes) = .ok format ↔
      HasFormat m format := by
  have top : argumentAddress m 0 = m.registers.esp := add_toUInt32_zero _
  simp only [bind_eq_ok, argument_eq_ok_iff, top, readText_eq_ok_iff, HasFormat]
  constructor
  · rintro ⟨_, ⟨fine, rfl⟩, has⟩
    exact ⟨fine, has⟩
  · rintro ⟨fine, has⟩
    exact ⟨_, ⟨fine, rfl⟩, has⟩

theorem HasFormat.unique {other : Bytes} (first : HasFormat m format) (second : HasFormat m other) :
    format = other := by
  rw [← readFormat_eq_ok_iff] at first second
  exact Except.ok.inj (first.symm.trans second)

/-- An argument is converted to what its letter shows. -/
theorem shows_iff :
    (do Routine.convert m letter (← Routine.argument m index)) = .ok text ↔
      Shows m (argumentAddress m index) letter text := by
  simp only [bind_eq_ok, argument_eq_ok_iff]
  constructor
  · rintro ⟨_, ⟨fine, rfl⟩, converted⟩
    unfold Routine.convert at converted
    split at converted
    · subst letter
      cases converted
      exact .number fine
    split at converted
    · subst letter
      cases converted
      exact .byte fine
    split at converted
    · subst letter
      exact .text fine (readText_eq_ok_iff.mp converted)
    · cases converted
  · intro shows
    cases shows with
    | number fine => exact ⟨_, ⟨fine, rfl⟩, rfl⟩
    | byte fine => exact ⟨_, ⟨fine, rfl⟩, rfl⟩
    | text fine has => exact ⟨_, ⟨fine, rfl⟩, readText_eq_ok_iff.mpr has⟩

/-! What the text of pieces is made of, by the first of them. -/

theorem expands_nil_iff : Expands m next [] text ↔ text = [] := by
  constructor
  · rintro ⟨shown, _, rfl⟩
    rfl
  · rintro rfl
    exact ⟨[], .nil, rfl⟩

theorem expands_byte_iff {b : UInt8} {pieces : List Piece} :
    Expands m next (.byte b :: pieces) text ↔
      ∃ rest, Expands m next pieces rest ∧ b :: rest = text := by
  constructor
  · rintro ⟨shown, all, rfl⟩
    exact ⟨_, ⟨shown, all, rfl⟩, rfl⟩
  · rintro ⟨_, ⟨shown, all, rfl⟩, rfl⟩
    exact ⟨shown, all, rfl⟩

theorem expands_conversion_iff {pieces : List Piece} :
    Expands m next (.conversion letter :: pieces) text ↔
      ∃ first, Shows m (argumentAddress m next) letter first ∧
        ∃ rest, Expands m (next + 1) pieces rest ∧ first ++ rest = text := by
  constructor
  · rintro ⟨shown, all, rfl⟩
    cases all with
    | cons first others => exact ⟨_, first, _, ⟨_, others, rfl⟩, rfl⟩
  · rintro ⟨first, shows, _, ⟨shown, all, rfl⟩, rfl⟩
    exact ⟨first :: shown, .cons shows all, rfl⟩

/-- A format is expanded to the text of its pieces. -/
theorem expand_eq_ok_iff :
    Routine.expand m next format = .ok text ↔ Expands m next (Piece.ofFormat format) text := by
  have pure_iff {a b : Bytes} : (pure a : Except Fault Bytes) = .ok b ↔ a = b :=
    ⟨Except.ok.inj, congrArg Except.ok⟩
  fun_induction Routine.expand m next format generalizing text with
  | case1 =>
    rw [Piece.ofFormat, expands_nil_iff, eq_comm (b := [])]
    exact pure_iff
  | case2 next =>
    simp only [Piece.ofFormat, expands_byte_iff, expands_nil_iff, exists_eq_left]
    exact pure_iff
  | case3 next rest ih =>
    simp only [Piece.ofFormat, ne_eq, not_true_eq_false, if_false, if_true, expands_byte_iff, ← ih,
      bind_eq_ok, pure_iff]
  | case4 next letter rest other ih =>
    simp only [Piece.ofFormat, ne_eq, not_true_eq_false, if_false, other, expands_conversion_iff,
      ← shows_iff, ← ih, bind_eq_ok, pure_iff]
    constructor
    · rintro ⟨v, taken, first, converted, others⟩
      exact ⟨first, ⟨v, taken, converted⟩, others⟩
    · rintro ⟨first, ⟨v, taken, converted⟩, others⟩
      exact ⟨v, taken, first, converted, others⟩
  | case5 next b rest other ih =>
    simp only [Piece.ofFormat_cons other, expands_byte_iff, ← ih, bind_eq_ok, pure_iff]

theorem hides_iff : Hides m a letter ↔ ¬ ∃ shown, Shows m a letter shown := by
  constructor
  · rintro hides ⟨shown, shows⟩
    cases shows with
    | number fine | byte fine =>
      cases hides with
      | word fault => exact absurd (fine.symm.trans fault) (by decide)
      | letter unknown => exact unknown (by decide)
    | text fine has =>
      cases hides with
      | word fault => exact absurd (fine.symm.trans fault) (by decide)
      | text missing => exact missing _ has
      | letter unknown => exact unknown (by decide)
  · intro nothing
    cases fine : accessible a 4 with
    | false => exact .word fine
    | true =>
      by_cases known : letter ∈ [Bytes.code 'd', Bytes.code 'c', Bytes.code 's']
      · simp only [List.mem_cons, List.not_mem_nil, or_false] at known
        rcases known with rfl | rfl | rfl
        · exact absurd ⟨_, .number fine⟩ nothing
        · exact absurd ⟨_, .byte fine⟩ nothing
        · exact .text fun shown has => nothing ⟨shown, .text fine has⟩
      · exact .letter known

/-- Pieces have a text if all their conversions show something. -/
theorem exists_expands_iff {pieces : List Piece} :
    (∃ text, Expands m next pieces text) ↔
      ∀ c ∈ Piece.conversions next pieces, ∃ shown, Shows m (argumentAddress m c.2) c.1 shown := by
  constructor
  · rintro ⟨_, shown, all, rfl⟩ c member
    obtain ⟨i, bound, rfl⟩ := List.mem_iff_getElem.mp member
    exact ⟨_, all.get bound (all.length_eq ▸ bound)⟩
  · intro every
    choose! text shows using every
    refine ⟨_, (Piece.conversions next pieces).map text, ?_, rfl⟩
    rw [List.forall₂_map_right_iff, List.forall₂_same]
    exact shows

/-- Nothing is printed where there is no format with a text. -/
theorem refuses_iff :
    Refuses m ↔ ¬ ∃ format text, HasFormat m format ∧ Expands m 1 (Piece.ofFormat format) text := by
  constructor
  · rintro refuses ⟨format, text, has, expands⟩
    cases refuses with
    | format missing => exact missing format has
    | argument other used hides =>
      obtain rfl := has.unique other
      exact hides_iff.mp hides (exists_expands_iff.mp ⟨text, expands⟩ _ used)
  · intro nothing
    by_cases some : ∃ format, HasFormat m format
    · obtain ⟨format, has⟩ := some
      have fails : ¬ ∃ text, Expands m 1 (Piece.ofFormat format) text :=
        fun ⟨text, expands⟩ => nothing ⟨format, text, has, expands⟩
      simp only [exists_expands_iff, not_forall] at fails
      obtain ⟨⟨letter, index⟩, used, hides⟩ := fails
      exact .argument has used (hides_iff.mpr hides)
    · exact .format fun format has => some ⟨format, has⟩

/-- What the routine does: it finds the text, and then writes it. -/
theorem perform_printf (m : Machine) :
    perform Routine.printf.run m =
      match (do m.readText (← Routine.argument m 0) : Except Fault Bytes) with
      | .error fault => (.error fault, m)
      | .ok format =>
        match Routine.expand m 1 format with
        | .error fault => (.error fault, m)
        | .ok text => (if m.sink.fits text then .ok () else .error .sinkFull, { m with
            sink := m.sink.write text
            registers := { m.registers with
              eax := (m.sink.accepted text).length.toUInt32 } }) := by
  simp only [Routine.run, perform_bind, perform_look, perform_output]
  cases (do m.readText (← Routine.argument m 0) : Except Fault Bytes) with
  | error fault => rfl
  | ok format =>
    dsimp only
    cases Routine.expand m 1 format with
    | error fault => rfl
    | ok text =>
      dsimp only
      cases m.sink.fits text <;> rfl

end

/-- A machine that is about to print three arguments by a format, with room for three bytes. -/
private def printing (format : Bytes) : Machine where
  registers := { esp := 0x2000 }
  memory := (Memory.writeBytes {} 0x1000 (format ++ [0])).writeBytes 0x2000
    (Word.bytes 0x1000 ++ Word.bytes 0xFFFFFFFB ++ Word.bytes 0x41 ++ Word.bytes 0x1001)
  sink := { room := some 3 }

end Onepass.Machine
