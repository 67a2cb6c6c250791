import Onepass.Proofs.Assembly.Agreement

/-! What `.align` does with every number. An alignment is checked as a number, but data is padded by
machine words. So the padding is the least one for what the alignment is as a word, and a positive
multiple of `0x100000000` passes the check and leaves nothing to align to. It is the only way in which
an alignment that the check lets through stops the assembler. -/
namespace Onepass.Assembly

open Onepass.Machine (Word)

/-! Padding. -/

/-- The distances from an offset to the multiples of a number that are not before it. -/
def distances (n : Int) (offset : Word) : Set Nat := {p | n ∣ (offset.toNat : Int) + p}

theorem toNat_padding {w : Word} (some : w ≠ 0) (offset : Word) :
    (padding w offset).toNat = (w.toNat - offset.toNat % w.toNat) % w.toNat := by
  have positive : 0 < w.toNat := by
    rw [Nat.pos_iff_ne_zero]
    exact fun zero => some (UInt32.toNat.inj zero)
  have rest : (offset % w).toNat ≤ w.toNat := by
    rw [UInt32.toNat_mod]
    exact (Nat.mod_lt _ positive).le
  rw [padding, UInt32.toNat_mod, Word.toNat_sub_of_le rest, UInt32.toNat_mod]

/-- The padding reaches a multiple of the alignment, and nothing shorter does. -/
theorem padding_isLeast {w : Word} (some : w ≠ 0) (offset : Word) :
    IsLeast (distances w.toNat offset) (padding w offset).toNat := by
  have positive : 0 < w.toNat := by
    rw [Nat.pos_iff_ne_zero]
    exact fun zero => some (UInt32.toNat.inj zero)
  have rest := Nat.mod_lt offset.toNat positive
  have parts := Nat.div_add_mod offset.toNat w.toNat
  rw [toNat_padding some]
  constructor
  · change (w.toNat : Int) ∣ (offset.toNat : Int) + _
    norm_cast
    rcases Nat.eq_zero_or_pos (offset.toNat % w.toNat) with zero | some
    · rw [zero, Nat.sub_zero, Nat.mod_self, Nat.add_zero]
      exact Nat.dvd_of_mod_eq_zero zero
    · rw [Nat.mod_eq_of_lt (by omega)]
      refine ⟨offset.toNat / w.toNat + 1, ?_⟩
      rw [Nat.mul_add]
      omega
  · intro p reaches
    have reaches : w.toNat ∣ offset.toNat + p := by
      change (w.toNat : Int) ∣ (offset.toNat : Int) + p at reaches
      exact_mod_cast reaches
    -- The multiple that `p` reaches is not less than the remainder of the offset and `p`.
    have reaches : w.toNat ∣ offset.toNat % w.toNat + p := by
      have later : offset.toNat + p = w.toNat * (offset.toNat / w.toNat) +
          (offset.toNat % w.toNat + p) := by omega
      rw [later] at reaches
      exact (Nat.dvd_add_right (Nat.dvd_mul_right ..)).mp reaches
    rcases Nat.eq_zero_or_pos (offset.toNat % w.toNat) with zero | some
    · simp [zero]
    · rw [Nat.mod_eq_of_lt (by omega)]
      have := Nat.le_of_dvd (by omega) reaches
      omega

/-! Alignments. -/

theorem toNat_ofInt (n : Int) : ((Word.ofInt n).toNat : Int) = n % 0x100000000 := by
  have unsigned : (Word.ofInt n).toNat = (BitVec.ofInt 32 n).toNat := rfl
  rw [unsigned, BitVec.toNat_ofInt]
  omega

theorem ofInt_eq_zero {n : Int} : Word.ofInt n = 0 ↔ (0x100000000 : Int) ∣ n := by
  rw [← UInt32.toNat_inj, ← Int.natCast_inj, toNat_ofInt]
  exact (Int.dvd_iff_emod_eq_zero ..).symm

/-- Padding by words reaches the least multiple of the number itself, if words can count to one. -/
theorem padding_isLeast_of_fits {n : Int} {offset : Word} (positive : 0 < n)
    (some : Word.ofInt n ≠ 0) {p : Nat} (reaches : p ∈ distances n offset)
    (fits : offset.toNat + p < 0x100000000) :
    IsLeast (distances n offset) (padding (Word.ofInt n) offset).toNat := by
  rcases lt_or_ge n 0x100000000 with small | large
  · have same : ((Word.ofInt n).toNat : Int) = n := by
      rw [toNat_ofInt]
      exact Int.emod_eq_of_lt positive.le small
    rw [← same]
    simpa only [same] using padding_isLeast some offset
  · -- The only multiple of a large number that words can count to is zero.
    have zero : (offset.toNat : Int) + p = 0 := by
      apply Int.eq_zero_of_dvd_of_nonneg_of_lt _ _ reaches <;> omega
    have start : offset.toNat = 0 := by omega
    rw [toNat_padding some, start, Nat.zero_mod, Nat.sub_zero, Nat.mod_self]
    exact ⟨by simp [distances, start], fun _ _ => Nat.zero_le _⟩

theorem alignment_eq_badAlignment {arguments : List Argument} :
    alignment arguments = .error .badAlignment ↔
      ¬ ∃ n : Int, arguments = [.number n] ∧ 0 < n := by
  unfold alignment
  split
  · rename_i n
    simp only [List.cons.injEq, Argument.number.injEq, and_true, exists_eq_left', not_lt]
    split
    · rename_i negative
      simp [negative]
    · rename_i positive
      split <;> simp [positive]
  · rename_i other
    simp only [true_iff]
    rintro ⟨n, rfl, _⟩
    exact other n rfl

namespace Directive

variable {d : Directive} {offset : Word}

theorem size_of_align (kind : d.kind = .align) :
    d.size offset = alignment d.arguments >>= fun w => pure (padding w offset) := by
  rw [size, kind]

/-- Whether a directive asks for an alignment that is positive as a number, but zero as a word. -/
def AsksForZero (d : Directive) : Prop :=
  d.kind = .align ∧ ∃ n : Int, d.arguments = [.number n] ∧ 0 < n ∧ (0x100000000 : Int) ∣ n

theorem alignment_eq_zeroAlignment {arguments : List Argument} :
    alignment arguments = .error .zeroAlignment ↔
      ∃ n : Int, arguments = [.number n] ∧ 0 < n ∧ (0x100000000 : Int) ∣ n := by
  unfold alignment
  split
  · rename_i n
    simp only [List.cons.injEq, Argument.number.injEq, and_true, exists_eq_left', ofInt_eq_zero]
    split
    · rename_i negative
      simp [negative]
    · rename_i positive
      split
      · rename_i zero
        simpa [zero] using positive
      · rename_i other
        simp [other]
  · rename_i other
    simp only [Except.error.injEq, reduceCtorEq, false_iff]
    rintro ⟨n, rfl, _⟩
    exact other n rfl

/-- The only directives whose size is undefined for want of a word to align to. -/
theorem size_eq_zeroAlignment : d.size offset = .error .zeroAlignment ↔ d.AsksForZero := by
  have texts (extra : Nat) :
      (strings d.name d.arguments >>= fun texts =>
        pure (textSize extra texts).toUInt32 : Except Cause Word) ≠ .error .zeroAlignment := by
    induction d.arguments with
    | nil => simp [strings, pure, Except.pure]
    | cons first rest ih =>
      cases first with
      | text contents =>
        cases found : strings d.name rest with
        | ok others => simp [strings, found, pure, Except.pure]
        | error cause =>
          rw [found] at ih
          simpa [strings, found, bind, Except.bind] using ih
      | number | symbol => simp [strings, bind, Except.bind]
  unfold AsksForZero
  rw [← alignment_eq_zeroAlignment]
  unfold size
  cases kind : d.kind with
  | align =>
    cases alignment d.arguments with
    | ok w => simp [pure, Except.pure]
    | error cause => simp [bind, Except.bind]
  | ascii => simpa using texts 0
  | asciz => simpa using texts 1
  | long | byte | globl | text | data | named | unknown => simp

end Directive

/-! The whole assembler. -/

namespace Layout

variable {l after : Layout} {code : Code} {number : Nat}

/-- Where the first pass stops. -/
theorem lines_eq_error {fault : Fault} :
    l.lines number code = .error fault ↔
      ∃ before line rest there cause, code = before ++ line :: rest ∧
        l.lines number before = .ok there ∧ there.line line = .error cause ∧
        fault = .onLine (number + before.length) cause := by
  induction code generalizing l number with
  | nil => simp [lines]
  | cons first others ih =>
    constructor
    · intro failed
      cases moved : l.line first with
      | error cause =>
        simp only [lines, moved, Except.error.injEq] at failed
        exact ⟨[], first, others, l, cause, rfl, rfl, moved, failed.symm⟩
      | ok next =>
        simp only [lines, moved] at failed
        obtain ⟨before, line, rest, there, cause, rfl, reached, stopped, rfl⟩ := ih.mp failed
        refine ⟨first :: before, line, rest, there, cause, rfl,
          lines_cons_eq_ok.mpr ⟨next, moved, reached⟩, stopped, ?_⟩
        rw [List.length_cons]
        congr 1
        omega
    · rintro ⟨before, line, rest, there, cause, split, reached, stopped, rfl⟩
      cases before with
      | nil =>
        cases split
        cases reached
        simp [lines, stopped]
      | cons head before =>
        obtain ⟨rfl, rfl⟩ := List.cons.inj split
        obtain ⟨next, moved, reached⟩ := lines_cons_eq_ok.mp reached
        simp only [lines, moved]
        refine ih.mpr ⟨before, line, rest, there, cause, rfl, reached, stopped, ?_⟩
        rw [List.length_cons]
        congr 1
        omega

theorem labels_ne_zeroAlignment (names : List Bytes) :
    names.foldlM define l ≠ .error .zeroAlignment := by
  induction names generalizing l with
  | nil => simp [pure, Except.pure]
  | cons first rest ih =>
    rw [List.foldlM_cons]
    unfold define
    split
    · simp [bind, Except.bind]
    · cases l.current <;> exact ih

theorem statement_eq_zeroAlignment {s : Statement} :
    l.statement s = .error .zeroAlignment ↔ ∃ d, s = .directive d ∧ d.AsksForZero := by
  cases s with
  | instruction i =>
    simp only [statement, reduceCtorEq, false_and, exists_false, iff_false]
    split <;> simp [pure, Except.pure]
  | directive d =>
    simp only [Statement.directive.injEq, exists_eq_left', statement]
    cases entered : l.current.after d with
    | error cause =>
      have named : d.kind = .named ∧ cause = .unnamedSection := by
        unfold Section.after at entered
        cases kind : d.kind <;> rw [kind] at entered <;> simp only [reduceCtorEq] at entered
        split at entered <;> cases entered
        exact ⟨rfl, rfl⟩
      simp [bind, Except.bind, Directive.AsksForZero, named]
    | ok current =>
      rw [ok_bind, ← @Directive.size_eq_zeroAlignment d l.size]
      cases d.size l.size with
      | error cause => simp [bind, Except.bind]
      | ok size =>
        simp only [ok_bind]
        split <;> simp [pure, Except.pure]

theorem line_eq_zeroAlignment {line : Line} :
    l.line line = .error .zeroAlignment ↔
      (∃ labelled, line.labels.foldlM define l = .ok labelled) ∧
        ∃ d, line.statement = some (.directive d) ∧ d.AsksForZero := by
  unfold Layout.line
  cases defined : line.labels.foldlM define l with
  | error cause =>
    have other : cause ≠ .zeroAlignment := by
      rintro rfl
      exact labels_ne_zeroAlignment _ defined
    simp [bind, Except.bind, other]
  | ok labelled =>
    cases line.statement with
    | none => simp [pure, Except.pure]
    | some s => simp [statement_eq_zeroAlignment]

end Layout

/-- Once the first pass has gone through code, the second pass does not want for an alignment. -/
theorem Image.lines_ne_zeroAlignment {code : Code} {final : Layout} {image : Image}
    (first : Layout.ofCode code = .ok final) (number place : Nat) :
    Image.lines final image number code ≠ .error (.onLine place .zeroAlignment) := by
  intro failed
  obtain ⟨line, member, s, found, _, cause, here, ⟨⟩, failed⟩ :=
    Image.statement_of_lines_error failed
  have about : Cause.zeroAlignment.isAboutArguments = false := by
    cases s with
    | directive d =>
      simp only [Image.statement] at failed
      split at failed
      · cases failed
      · cases data : final.directiveData d found.data.size.toUInt32 with
        | ok bytes =>
          rw [data] at failed
          cases failed
        | error other =>
          rw [data] at failed
          cases failed
          exact Layout.directiveData_error (isWhole_of_lines first member here) data
    | instruction i =>
      cases decoded : final.instruction place i with
      | ok instr =>
        simp only [Image.statement, decoded] at failed
        cases failed
      | error other =>
        simp only [Image.statement, decoded] at failed
        cases failed
        exact Layout.instruction_error decoded
  cases about

/-- Whether the first pass comes to a line of code, and past its labels. -/
def Arrives (code : Code) (number : Nat) (line : Line) : Prop :=
  ∃ before rest there labelled, code = before ++ line :: rest ∧ number = 1 + before.length ∧
    Layout.lines {} 1 before = .ok there ∧ line.labels.foldlM Layout.define there = .ok labelled

theorem Image.ofCode_eq_zeroAlignment {code : Code} {number : Nat} :
    Image.ofCode code = .error (.onLine number .zeroAlignment) ↔
      ∃ line d, Arrives code number line ∧ line.statement = some (.directive d) ∧
        d.AsksForZero := by
  have stops : Layout.ofCode code = .error (.onLine number .zeroAlignment) ↔
      ∃ line d, Arrives code number line ∧ line.statement = some (.directive d) ∧
        d.AsksForZero := by
    rw [Layout.ofCode, Layout.lines_eq_error]
    constructor
    · rintro ⟨before, line, rest, there, cause, split, reached, stopped, ⟨⟩⟩
      obtain ⟨⟨labelled, defined⟩, d, found, zero⟩ := Layout.line_eq_zeroAlignment.mp stopped
      exact ⟨line, d, ⟨before, rest, there, labelled, split, rfl, reached, defined⟩, found, zero⟩
    · rintro ⟨line, d, ⟨before, rest, there, labelled, split, rfl, reached, defined⟩, found, zero⟩
      exact ⟨before, line, rest, there, _, split, reached,
        Layout.line_eq_zeroAlignment.mpr ⟨⟨labelled, defined⟩, d, found, zero⟩, rfl⟩
  rw [← stops, Image.ofCode]
  cases first : Layout.ofCode code with
  | error fault => simp [bind, Except.bind]
  | ok final => simpa using Image.lines_ne_zeroAlignment first 1 number

/-- An `.align` is turned down unless its argument is a positive number. Otherwise data is padded to
the next multiple of what the number is as a word, which is a multiple of the number itself wherever
words can count to one. A number that is zero as a word leaves nothing to align to. Assembling a text
stops for this reason exactly if it comes to such a directive. -/
theorem align_pads_to_words (d : Directive) (kind : d.kind = .align) (offset : Word) (text : Bytes)
    (number : Nat) :
    (¬ (∃ n : Int, d.arguments = [.number n] ∧ 0 < n) ↔ d.size offset = .error .badAlignment) ∧
    (∀ n : Int, d.arguments = [.number n] → 0 < n →
      ((0x100000000 : Int) ∣ n → d.size offset = .error .zeroAlignment) ∧
      (¬ (0x100000000 : Int) ∣ n →
        ∃ size, d.size offset = .ok size ∧
          IsLeast (distances (n % 0x100000000) offset) size.toNat ∧
          ((∃ p ∈ distances n offset, offset.toNat + p < 0x100000000) →
            IsLeast (distances n offset) size.toNat))) ∧
    (assemble text = .error (.onLine number .zeroAlignment) ↔
      ∃ code line d, read text = .ok code ∧ Arrives code number line ∧
        line.statement = some (.directive d) ∧ d.AsksForZero) := by
  refine ⟨?_, fun n arguments positive => ⟨fun zero => ?_, fun other => ?_⟩, ?_⟩
  · rw [Directive.size_of_align kind, ← alignment_eq_badAlignment]
    cases alignment d.arguments with
    | ok w => simp [pure, Except.pure]
    | error cause => simp [bind, Except.bind]
  · exact Directive.size_eq_zeroAlignment.mpr ⟨kind, n, arguments, positive, zero⟩
  · have some : Word.ofInt n ≠ 0 := fun zero => other (ofInt_eq_zero.mp zero)
    have known : alignment d.arguments = .ok (Word.ofInt n) :=
      alignment_eq_ok.mpr ⟨n, arguments, positive, rfl, some⟩
    refine ⟨padding (Word.ofInt n) offset, ?_, ?_, ?_⟩
    · rw [Directive.size_of_align kind, known]
      rfl
    · rw [← toNat_ofInt]
      exact padding_isLeast some offset
    · rintro ⟨p, reaches, fits⟩
      exact padding_isLeast_of_fits positive some reaches fits
  · unfold assemble
    cases read text with
    | error reason => simp
    | ok code => simp [Image.ofCode_eq_zeroAlignment]

/-- Three bytes of padding after five bytes of data. -/
theorem align_pads_to_words_eight :
    ∃ size, Directive.size ⟨".align", [.number 8]⟩ 5 = .ok size ∧
      IsLeast (distances 8 5) size.toNat := by
  have kind : Directive.kind ⟨".align", [.number 8]⟩ = .align := by decide
  obtain ⟨_, pads, _⟩ := align_pads_to_words ⟨".align", [.number 8]⟩ kind 5 [] 1
  obtain ⟨size, sized, _, least⟩ := (pads 8 rfl (by decide)).2 (by decide)
  have reaches : 3 ∈ distances 8 5 := by
    change (8 : Int) ∣ ((5 : Word).toNat : Int) + (3 : Nat)
    decide
  exact ⟨size, sized, least ⟨3, reaches, by decide⟩⟩

/-- The least number that passes the check of `.align` and is zero as a word. -/
theorem assemble_align_zero_word :
    assemble "\t.data\n\t.align 4294967296\n" = .error (.onLine 2 .zeroAlignment) := by
  decide +kernel

end Onepass.Assembly
