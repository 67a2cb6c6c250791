import Onepass.Proofs.Machine.Steps

/-! Division of the number in two registers by a word. Where the quotient, rounded toward zero, is the
value of a word, the machine leaves it with its remainder; everywhere else it stops and changes
nothing. Dividing by a factor undoes the multiplication by it, however large the product is. -/
namespace Onepass.Machine

/-- The fault of a division that has no quotient. -/
def Fault.isDivision : Fault → Bool
  | .divisionByZero | .quotientOverflow => true
  | _ => false

/-- The number in `%edx:%eax`, read as a signed number of 64 bits. -/
def Registers.wide (r : Registers) : Int := (r.edx.toBitVec ++ r.eax.toBitVec).toInt

namespace Word

/-- Whether a number is the value of a signed word. -/
def IsValue (n : Int) : Prop := -0x80000000 ≤ n ∧ n < 0x80000000

instance : DecidablePred IsValue := fun n =>
  inferInstanceAs (Decidable (-0x80000000 ≤ n ∧ n < 0x80000000))

theorem isValue_toInt (w : Word) : IsValue w.toInt := by
  have bound := w.toNat_lt
  rw [IsValue, toInt_eq]
  split <;> omega

/-- The numbers that a word can hold are those that it keeps. -/
theorem toInt_ofInt_eq_iff {n : Int} : (ofInt n).toInt = n ↔ IsValue n := by
  constructor
  · intro same
    rw [← same]
    exact isValue_toInt _
  · rintro ⟨low, high⟩
    rw [toInt_ofInt, Int32.toInt_ofInt]
    exact Int.bmod_eq_of_le (by simp [Int32.size]; omega) (by simp [Int32.size]; omega)

theorem toInt_eq_zero_iff {w : Word} : w.toInt = 0 ↔ w = 0 := by
  have bound := w.toNat_lt
  rw [toInt_eq, ← UInt32.toNat_inj, UInt32.toNat_zero]
  split <;> omega

theorem ofInt_toInt_self (w : Word) : ofInt w.toInt = w :=
  (ofInt_toInt w.toInt32).trans (UInt32.toUInt32_toInt32 w)

theorem toNat_ofInt (n : Int) : (ofInt n).toNat = (n % 0x100000000).toNat := by
  simp [ofInt, Int32.ofInt, UInt32.toNat]

end Word

/-- The high word counts with its sign and the low word without one. -/
theorem Registers.wide_eq (r : Registers) : r.wide = wideInt r.edx r.eax := by
  have sign : r.edx.toBitVec.toInt = r.edx.toInt := (Int32.toInt_toBitVec r.edx.toInt32).symm
  rw [wide, BitVec.toInt_append, if_neg (by decide), sign, wideInt, Int.mul_comm]
  rfl

/-- A number of two words is made of its high and its low word. -/
theorem wideInt_ofInt {n : Int} (low : -0x8000000000000000 ≤ n) (high : n < 0x8000000000000000) :
    wideInt (.ofInt (n / 0x100000000)) (.ofInt n) = n := by
  have fits : Word.IsValue (n / 0x100000000) := by
    constructor <;> omega
  rw [wideInt, Word.toInt_ofInt_eq_iff.mpr fits, Word.toNat_ofInt]
  omega

/-- The product of two words is a number of two words. -/
theorem wideInt_product (a b : Word) :
    wideInt (.ofInt (a.toInt * b.toInt / 0x100000000)) (.ofInt (a.toInt * b.toInt)) =
      a.toInt * b.toInt := by
  obtain ⟨lowA, highA⟩ := Word.isValue_toInt a
  obtain ⟨lowB, highB⟩ := Word.isValue_toInt b
  have small : |a.toInt * b.toInt| ≤ 0x80000000 * 0x80000000 := by
    rw [abs_mul]
    exact mul_le_mul (abs_le.mpr (by omega)) (abs_le.mpr (by omega)) (abs_nonneg _) (by decide)
  obtain ⟨low, high⟩ := abs_le.mp small
  exact wideInt_ofInt (by omega) (by omega)

section Remainder

variable {n d : Int}

theorem abs_tmod_lt (nonzero : d ≠ 0) : |n.tmod d| < |d| := by
  rw [Int.abs_eq_natAbs, Int.abs_eq_natAbs, Int.natAbs_tmod]
  exact_mod_cast Nat.mod_lt _ (Int.natAbs_pos.mpr nonzero)

/-- A remainder has the sign of the dividend. -/
theorem tmod_eq_zero_or_sign (n d : Int) : n.tmod d = 0 ∨ (n.tmod d).sign = n.sign := by
  by_cases divides : d ∣ n
  · exact .inl (Int.tmod_eq_zero_of_dvd divides)
  · exact .inr (by rw [Int.sign_tmod, if_neg divides])

/-- The remainder of a division by a word is the value of a word. -/
theorem isValue_tmod {w : Word} (nonzero : w.toInt ≠ 0) : Word.IsValue (n.tmod w.toInt) := by
  obtain ⟨low, high⟩ := Word.isValue_toInt w
  have least : |w.toInt| ≤ 0x80000000 := abs_le.mpr (by omega)
  obtain ⟨above, below⟩ := abs_lt.mp (lt_of_lt_of_le (abs_tmod_lt (n := n) nonzero) least)
  exact ⟨by omega, by omega⟩

end Remainder

section Division

variable {m : Machine} {d : Word}

/-- Without a quotient that is the value of a word, nothing is done. -/
theorem divideWide_fault (none : d.toInt = 0 ∨ ¬ Word.IsValue (m.registers.wide.tdiv d.toInt)) :
    ∃ fault, fault.isDivision = true ∧ perform (divideWide d) m = (.error fault, m) := by
  rw [perform_divideWide]
  by_cases zero : d = 0
  · exact ⟨.divisionByZero, rfl, if_pos zero⟩
  · have wide : ¬ Word.IsValue (m.registers.wide.tdiv d.toInt) :=
      none.resolve_left (mt Word.toInt_eq_zero_iff.mp zero)
    rw [Registers.wide_eq, ← Word.toInt_ofInt_eq_iff] at wide
    exact ⟨.quotientOverflow, rfl, (if_neg zero).trans (if_pos wide)⟩

/-- With one, the quotient and the remainder are left. -/
theorem divideWide_eq (nonzero : d.toInt ≠ 0)
    (fits : Word.IsValue (m.registers.wide.tdiv d.toInt)) :
    perform (divideWide d) m = (.ok (), { m with
      registers := { m.registers with
        eax := .ofInt (m.registers.wide.tdiv d.toInt)
        edx := .ofInt (m.registers.wide.tmod d.toInt) } }) := by
  have some : d ≠ 0 := mt Word.toInt_eq_zero_iff.mpr nonzero
  rw [Registers.wide_eq] at fits ⊢
  rw [perform_divideWide, if_neg some]
  exact if_neg (not_not.mpr (Word.toInt_ofInt_eq_iff.mpr fits))

/-- A multiplication leaves the whole product. -/
theorem multiplyWide_eq (m : Machine) (d : Word) :
    ∃ flags high low, perform (multiplyWide d) m = (.ok (), { m with
        flags, registers := { m.registers with eax := low, edx := high } }) ∧
      wideInt high low = m.registers.eax.toInt * d.toInt :=
  ⟨_, _, _, rfl, wideInt_product _ _⟩

end Division

/-- Division is exact. It stops at a fault and changes nothing if the divisor is zero or the quotient,
rounded toward zero, is no value of a word, and only then. Otherwise the quotient and the remainder
make up the dividend, and the remainder is smaller than the divisor and has the sign of the dividend.
After the accumulator was multiplied by a word other than zero, a division by that word brings it
back and leaves no remainder. -/
theorem idivl_divides (m : Machine) (line : Int) :
    (∀ o d, perform (Exec.read o) m = (.ok d, m) →
      ((∃ fault, fault.isDivision = true ∧
          perform (execute ⟨.idivl, [o], line⟩) m = (.error fault, m)) ↔
        d.toInt = 0 ∨ ¬ Word.IsValue (m.registers.wide.tdiv d.toInt)) ∧
      (d.toInt ≠ 0 → Word.IsValue (m.registers.wide.tdiv d.toInt) →
        ∃ q r : Word, perform (execute ⟨.idivl, [o], line⟩) m =
            (.ok (), { m with registers := { m.registers with eax := q, edx := r } }) ∧
          m.registers.wide = q.toInt * d.toInt + r.toInt ∧ |r.toInt| < |d.toInt| ∧
          (r.toInt = 0 ∨ r.toInt.sign = m.registers.wide.sign))) ∧
    ∀ o d, perform (Exec.read o) m = (.ok d, m) → d ≠ 0 →
      ∃ after, perform (execute ⟨.imull, [o], line⟩) m = (.ok (), after) ∧
        ∀ p later, perform (Exec.read p) after = (.ok d, after) →
          perform (execute ⟨.idivl, [p], later⟩) after = (.ok (), { m with
            flags := after.flags, registers := { m.registers with edx := 0 } }) := by
  constructor
  · intro o d read
    rw [execute_idivl read]
    refine ⟨⟨fun ⟨fault, _, failed⟩ => ?_, divideWide_fault⟩, fun nonzero fits =>
      ⟨_, _, divideWide_eq nonzero fits, ?_⟩⟩
    · by_contra some
      obtain ⟨nonzero, fits⟩ := not_or.mp some
      rw [divideWide_eq nonzero (not_not.mp fits)] at failed
      cases failed
    · rw [Word.toInt_ofInt_eq_iff.mpr fits, Word.toInt_ofInt_eq_iff.mpr (isValue_tmod nonzero)]
      exact ⟨(Int.tdiv_mul_add_tmod _ _).symm, abs_tmod_lt nonzero, tmod_eq_zero_or_sign _ _⟩
  · intro o d read some
    have nonzero : d.toInt ≠ 0 := mt Word.toInt_eq_zero_iff.mp some
    obtain ⟨flags, high, low, product, whole⟩ := multiplyWide_eq m d
    refine ⟨_, (execute_imull read).trans product, fun p later again => ?_⟩
    have quotient := Int.mul_tdiv_cancel m.registers.eax.toInt nonzero
    have remainder := Int.mul_tmod_left m.registers.eax.toInt d.toInt
    rw [← whole] at quotient remainder
    rw [execute_idivl again, divideWide_eq nonzero, Registers.wide_eq]
    · dsimp only
      rw [quotient, remainder, Word.ofInt_toInt_self]
      rfl
    · rw [Registers.wide_eq]
      dsimp only
      rw [quotient]
      exact Word.isValue_toInt _

/-- A machine with a dividend, and with a divisor in a register. -/
private def holding (high low divisor : Word) : Machine where
  registers := { edx := high, eax := low, ecx := divisor }

theorem idivl_divides_extremes :
    (∃ fault, fault.isDivision = true ∧
      perform (execute ⟨.idivl, [.full .ecx], 1⟩) (holding 0x80000000 0 0xFFFFFFFF) =
        (.error fault, holding 0x80000000 0 0xFFFFFFFF)) ∧
    (∃ q r : Word, perform (execute ⟨.idivl, [.full .ecx], 1⟩) (holding 0xFFFFFFFF 0xFFFFFFF9 2) =
        (.ok (), holding r q 2) ∧ -7 = q.toInt * 2 + r.toInt ∧ |r.toInt| < 2) ∧
    ∃ after, perform (execute ⟨.imull, [.full .ecx], 1⟩) (holding 7 0x80000000 0x80000000) =
        (.ok (), after) ∧
      perform (execute ⟨.idivl, [.full .ecx], 2⟩) after =
        (.ok (), { holding 0 0x80000000 0x80000000 with flags := after.flags }) := by
  obtain ⟨q, r, divided, whole, small, _⟩ :=
    ((idivl_divides (holding 0xFFFFFFFF 0xFFFFFFF9 2) 1).1 (.full .ecx) _ read_register).2
      (by decide) (by decide +kernel)
  have dividend : (holding 0xFFFFFFFF 0xFFFFFFF9 2).registers.wide = -7 := by decide +kernel
  obtain ⟨after, multiplied, restores⟩ :=
    (idivl_divides (holding 7 0x80000000 0x80000000) 1).2 (.full .ecx) _ read_register (by decide)
  have kept : perform (Exec.read (.full .ecx)) after = (.ok 0x80000000, after) := by
    cases multiplied
    exact read_register
  exact ⟨((idivl_divides _ 1).1 (.full .ecx) _ read_register).1.mpr (.inr (by decide +kernel)),
    ⟨q, r, divided, dividend ▸ whole, small⟩, after, multiplied, restores (.full .ecx) 2 kept⟩

end Onepass.Machine
