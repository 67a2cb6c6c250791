import Onepass.Proofs.Machine.Division

/-! What the flags say about the words they come from. The flags of a subtraction decide how its
operands compare, with and without a sign, and the carry and the overflow of a sum tell when it leaves
the range of a word. -/
namespace Onepass.Machine

/-- What a condition says about two words: the letters of its suffix stand for the equality (`e`,
`ne`), for the order of the signed numbers (`l`, `ge`, `le`, `g`), and for the order of the words
without a sign (`b`, `ae`). -/
def Condition.Relates (a b : Word) : Condition → Prop
  | .signed .equal => a = b
  | .signed .notEqual => a ≠ b
  | .signed .less => a.toInt < b.toInt
  | .signed .greaterEqual => a.toInt ≥ b.toInt
  | .signed .lessEqual => a.toInt ≤ b.toInt
  | .signed .greater => a.toInt > b.toInt
  | .below => a.toNat < b.toNat
  | .aboveEqual => a.toNat ≥ b.toNat

instance (a b : Word) : DecidablePred (Condition.Relates a b)
  | .signed .equal => inferInstanceAs (Decidable (a = b))
  | .signed .notEqual => inferInstanceAs (Decidable (a ≠ b))
  | .signed .less => inferInstanceAs (Decidable (a.toInt < b.toInt))
  | .signed .greaterEqual => inferInstanceAs (Decidable (a.toInt ≥ b.toInt))
  | .signed .lessEqual => inferInstanceAs (Decidable (a.toInt ≤ b.toInt))
  | .signed .greater => inferInstanceAs (Decidable (a.toInt > b.toInt))
  | .below => inferInstanceAs (Decidable (a.toNat < b.toNat))
  | .aboveEqual => inferInstanceAs (Decidable (a.toNat ≥ b.toNat))

namespace Word

theorem toInt_inj {a b : Word} : a.toInt = b.toInt ↔ a = b := by
  constructor
  · intro same
    rw [← ofInt_toInt_self a, same, ofInt_toInt_self]
  · rintro rfl
    rfl

theorem isNegative_not (w : Word) : (~~~w).isNegative = !w.isNegative := by
  simp [isNegative_eq_msb]

end Word

namespace Flags

variable (a b : Word)

/-- The flags of a subtraction decide every comparison of its operands. -/
theorem holds_ofSub (condition : Condition) :
    (ofSub a b).holds condition = true ↔ condition.Relates a b := by
  have less := less_ofSub a b
  have notLess : ((ofSub a b).sign == (ofSub a b).overflow) = !decide (a.toInt < b.toInt) := by
    rw [← less, bne, Bool.not_not]
  have zero := zero_ofSub a b
  rcases condition with comparison | _ | _
  · cases comparison with
    | equal => simp [holds, compares, Condition.Relates, zero, Word.toInt_inj]
    | notEqual => simp [holds, compares, Condition.Relates, zero, Word.toInt_inj]
    | less => simp [holds, compares, Condition.Relates, less]
    | greaterEqual => simp [holds, compares, Condition.Relates, notLess]
    | lessEqual =>
      simp only [holds, compares, Condition.Relates, zero, less, Bool.or_eq_true,
        decide_eq_true_eq]
      omega
    | greater =>
      simp only [holds, compares, Condition.Relates, zero, notLess, Bool.and_eq_true,
        Bool.not_eq_true', decide_eq_false_iff_not]
      omega
  · exact decide_eq_true_iff
  · simp [holds, Condition.Relates, ofSub, withResult, UInt32.le_iff_toNat_le]

/-- The carry of a sum tells that the sum is no word. -/
theorem carry_ofAdd : (ofAdd a b).carry = true ↔ 0xFFFFFFFF < a.toNat + b.toNat := by
  have boundA := a.toNat_lt
  have boundB := b.toNat_lt
  have sum : (a + b).toNat = (a.toNat + b.toNat) % 0x100000000 := UInt32.toNat_add a b
  simp only [ofAdd, withResult, decide_eq_true_eq, UInt32.lt_iff_toNat_lt]
  omega

/-- The overflow of a sum tells that the sum is no value of a signed word. -/
theorem overflow_ofAdd :
    (ofAdd a b).overflow = true ↔ ¬ Word.IsValue (a.toInt + b.toInt) := by
  have boundA := a.toNat_lt
  have boundB := b.toNat_lt
  have sum : (a + b).toNat = (a.toNat + b.toNat) % 0x100000000 := UInt32.toNat_add a b
  simp only [ofAdd, withResult, Word.isNegative_and, Word.isNegative_not, Word.isNegative_xor]
  simp only [Word.isNegative_eq, Word.toInt_eq, Word.IsValue]
  generalize (a + b).toNat = c at sum
  generalize a.toNat = x at *
  generalize b.toNat = y at *
  -- Sums of words of different signs never overflow; those of one sign do when the sign changes.
  by_cases signA : 0x80000000 ≤ x <;> by_cases signB : 0x80000000 ≤ y <;>
    by_cases signC : 0x80000000 ≤ c <;> simp [signA, signB, signC] <;> omega

/-- A negation borrows unless it is that of zero. -/
theorem carry_ofSub_zero : (ofSub 0 a).carry = true ↔ a ≠ 0 := by
  rw [← UInt32.pos_iff_ne_zero]
  exact decide_eq_true_iff

/-- A negation overflows for the least number only, which is its own negation. -/
theorem overflow_ofSub_zero : (ofSub 0 a).overflow = true ↔ a.toInt = -0x80000000 := by
  have bound := a.toNat_lt
  have difference : (0 - a).toNat = (0x100000000 - a.toNat) % 0x100000000 := by
    simp
  simp only [ofSub, withResult, Word.isNegative_and, Word.isNegative_xor]
  simp only [Word.isNegative_eq, Word.toInt_eq, UInt32.toNat_zero]
  generalize (0 - a).toNat = c at difference
  generalize a.toNat = x at *
  by_cases signA : 0x80000000 ≤ x <;> by_cases signC : 0x80000000 ≤ c <;>
    simp [signA, signC] <;> omega

end Flags

section Execution

variable {m : Machine} {o p : Operand} {a b : Word} {line : Int}

/-- Writing to an operand leaves the flags alone, whether it succeeds or not. -/
theorem flags_write (o : Operand) (w : Word) (m : Machine) :
    (perform (Exec.write o w) m).2.flags = m.flags := by
  have stored : (perform (Exec.address o >>= fun a => Exec.change (·.writeWord a w)) m).2.flags =
      m.flags := by
    obtain ⟨result, found, _⟩ := perform_address (m := m) o
    rw [perform_bind, found]
    cases result with
    | error fault => rfl
    | ok address =>
      dsimp only
      rw [perform_change]
      cases fine : accessible address 4 with
      | false => rw [writeWord_fault fine]
      | true => rw [writeWord_eq fine]
  rcases o with ⟨_ | name | _ | _, destination⟩
  · exact stored
  · cases name <;> rfl
  · exact stored
  · exact stored

theorem flags_arithmetic (operation : Arithmetic) (right : perform (Exec.read o) m = (.ok b, m))
    (left : perform (Exec.read p) m = (.ok a, m)) :
    (perform (execute ⟨.arithmetic operation, [o, p], line⟩) m).2.flags =
      (operation.apply a b).2 := by
  rw [execute_arithmetic right left rfl]
  exact flags_write p _ _

theorem flags_negl (read : perform (Exec.read p) m = (.ok a, m)) :
    (perform (execute ⟨.negl, [p], line⟩) m).2.flags = .ofSub 0 a := by
  have opened : perform (execute ⟨.negl, [p], line⟩) m =
      perform (Exec.read p >>= fun a => do
        Exec.setFlags (.ofSub 0 a)
        Exec.write p (-a)) m := rfl
  rw [opened, perform_bind, read]
  exact flags_write p _ _

end Execution

/-- The flags decide comparisons. Those of a subtraction tell for every condition whether it holds of
the operands, the carry and the overflow of a sum tell whether it leaves the range of a word without
and with a sign, and a negation borrows for all words but zero and overflows for the least number
only. These are the flags that comparing, subtracting, adding and negating leave, whatever becomes of
the result. -/
theorem flags_decide :
    (∀ a b : Word,
      (∀ condition : Condition,
        (Flags.ofSub a b).holds condition = true ↔ condition.Relates a b) ∧
      ((Flags.ofAdd a b).carry = true ↔ 0xFFFFFFFF < a.toNat + b.toNat) ∧
      ((Flags.ofAdd a b).overflow = true ↔
        ¬ (-0x80000000 ≤ a.toInt + b.toInt ∧ a.toInt + b.toInt ≤ 0x7FFFFFFF))) ∧
    (∀ v : Word,
      ((Flags.ofSub 0 v).carry = true ↔ v ≠ 0) ∧
      ((Flags.ofSub 0 v).overflow = true ↔ v.toInt = -0x80000000)) ∧
    ∀ (m : Machine) (line : Int) (o p : Operand) (a b : Word),
      perform (Exec.read p) m = (.ok a, m) → perform (Exec.read o) m = (.ok b, m) →
      perform (execute ⟨.cmpl, [o, p], line⟩) m = (.ok (), { m with flags := .ofSub a b }) ∧
      (perform (execute ⟨.arithmetic .sub, [o, p], line⟩) m).2.flags = .ofSub a b ∧
      (perform (execute ⟨.arithmetic .add, [o, p], line⟩) m).2.flags = .ofAdd a b ∧
      (perform (execute ⟨.negl, [p], line⟩) m).2.flags = .ofSub 0 a := by
  refine ⟨fun a b => ⟨Flags.holds_ofSub a b, Flags.carry_ofAdd a b, ?_⟩,
    fun v => ⟨Flags.carry_ofSub_zero v, Flags.overflow_ofSub_zero v⟩,
    fun m line o p a b left right => ⟨execute_cmpl right left, flags_arithmetic .sub right left,
      flags_arithmetic .add right left, flags_negl left⟩⟩
  rw [Flags.overflow_ofAdd, Word.IsValue]
  omega

/-- A machine whose accumulator and counter hold two words. -/
private def holdingPair (a b : Word) : Machine where
  registers := { eax := a, ecx := b }

/-- The least number is below the greatest one, though their difference is positive. -/
theorem flags_decide_extremes :
    (perform (execute ⟨.cmpl, [.full .ecx, .full .eax], 1⟩) (holdingPair 0x80000000 0x7FFFFFFF) =
      (.ok (), { holdingPair 0x80000000 0x7FFFFFFF with flags := .ofSub 0x80000000 0x7FFFFFFF })) ∧
    (Flags.ofSub 0x80000000 0x7FFFFFFF).holds (.signed .less) = true ∧
    ¬ (Flags.ofSub 0x80000000 0x7FFFFFFF).holds .below = true ∧
    (perform (execute ⟨.negl, [.full .eax], 1⟩)
      (holdingPair 0x80000000 0x7FFFFFFF)).2.flags.overflow = true := by
  obtain ⟨words, negations, executed⟩ := flags_decide
  obtain ⟨compared, _, _, negated⟩ := executed (holdingPair 0x80000000 0x7FFFFFFF) 1 (.full .ecx)
    (.full .eax) _ _ read_register read_register
  refine ⟨compared, ((words _ _).1 (.signed .less)).mpr (by decide), ?_, ?_⟩
  · rw [(words _ _).1 .below]
    decide
  · rw [negated]
    exact (negations _).2.mpr (by decide)

end Onepass.Machine
