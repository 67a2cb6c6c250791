import Mathlib
import Onepass.Codegen.Fragment
import Onepass.Machine.Flags
import Onepass.Machine.Memory
import Onepass.Machine.Routine

/-! Facts about machine words: their bytes, their signed reading, what the flags of a subtraction
say about it, and rounding by masks. -/
namespace Onepass.Machine

namespace Word

theorem toNat_ofBytes (b₀ b₁ b₂ b₃ : UInt8) :
    (ofBytes b₀ b₁ b₂ b₃).toNat =
      b₀.toNat + 0x100 * b₁.toNat + 0x10000 * b₂.toNat + 0x1000000 * b₃.toNat := by
  have h₀ := b₀.toNat_lt
  have h₁ := b₁.toNat_lt
  have h₂ := b₂.toNat_lt
  have h₃ := b₃.toNat_lt
  have one := Nat.two_pow_add_eq_or_of_lt (i := 8) h₀ b₁.toNat
  have two := Nat.two_pow_add_eq_or_of_lt (i := 16) (b := 2 ^ 8 * b₁.toNat + b₀.toNat) (by omega)
    b₂.toNat
  have three := Nat.two_pow_add_eq_or_of_lt (i := 24)
    (b := 2 ^ 16 * b₂.toNat + (2 ^ 8 * b₁.toNat + b₀.toNat)) (by omega) b₃.toNat
  have second : (b₁.toUInt32 <<< 8).toNat = 2 ^ 8 * b₁.toNat := by
    simp [UInt32.toNat_shiftLeft, Nat.shiftLeft_eq]
    omega
  have third : (b₂.toUInt32 <<< 16).toNat = 2 ^ 16 * b₂.toNat := by
    simp [UInt32.toNat_shiftLeft, Nat.shiftLeft_eq]
    omega
  have fourth : (b₃.toUInt32 <<< 24).toNat = 2 ^ 24 * b₃.toNat := by
    simp [UInt32.toNat_shiftLeft, Nat.shiftLeft_eq]
    omega
  simp only [ofBytes, UInt32.toNat_or, second, third, fourth, UInt8.toNat_toUInt32]
  rw [Nat.or_comm b₀.toNat, ← one, Nat.or_comm _ (2 ^ 16 * _), ← two, Nat.or_comm, ← three]
  omega

/-- A word is made of its bytes. -/
theorem ofBytes_bytes (w : Word) :
    ofBytes w.toUInt8 (w >>> 8).toUInt8 (w >>> 16).toUInt8 (w >>> 24).toUInt8 = w := by
  apply UInt32.toNat_inj.mp
  have bound := w.toNat_lt
  have second : (w >>> 8).toNat = w.toNat / 2 ^ 8 := by
    simp [UInt32.toNat_shiftRight, Nat.shiftRight_eq_div_pow]
  have third : (w >>> 16).toNat = w.toNat / 2 ^ 16 := by
    simp [UInt32.toNat_shiftRight, Nat.shiftRight_eq_div_pow]
  have fourth : (w >>> 24).toNat = w.toNat / 2 ^ 24 := by
    simp [UInt32.toNat_shiftRight, Nat.shiftRight_eq_div_pow]
  rw [toNat_ofBytes]
  simp only [UInt32.toNat_toUInt8, second, third, fourth]
  omega

theorem toInt_eq (w : Word) :
    w.toInt = if w.toNat < 0x80000000 then (w.toNat : Int) else w.toNat - 0x100000000 := by
  have bound := w.toNat_lt
  unfold toInt
  rw [← Int32.toInt_toBitVec, BitVec.toInt_eq_toNat_cond]
  simp
  omega

@[simp] theorem toInt_toUInt32 (n : Int32) : toInt n.toUInt32 = n.toInt := by
  simp [toInt]

@[simp] theorem ofInt_toInt (n : Int32) : ofInt n.toInt = n.toUInt32 := by
  simp [ofInt]

theorem toInt_ofInt (n : Int) : (ofInt n).toInt = (Int32.ofInt n).toInt := by
  simp [ofInt, toInt]

theorem ofInt_natCast (n : Nat) : ofInt n = n.toUInt32 := by
  unfold ofInt
  rw [Int32.ofInt_eq_ofNat]
  rfl

theorem ofInt_add (a b : Int) : ofInt (a + b) = ofInt a + ofInt b := by
  simp [ofInt, Int32.ofInt_add]

/-- The low byte of a word does not depend on the others. -/
theorem toUInt8_and (w : Word) : (w &&& 0xFF).toUInt8 = w.toUInt8 := by
  apply UInt8.toNat_inj.mp
  have mask : (w &&& 0xFF).toNat = w.toNat % 2 ^ 8 := by
    rw [UInt32.toNat_and]
    exact Nat.and_two_pow_sub_one_eq_mod _ 8
  rw [UInt32.toNat_toUInt8, mask, UInt32.toNat_toUInt8, Nat.mod_mod]

/-- A byte that is put in the place of the low byte of a word. -/
theorem toUInt8_insert (w : Word) (b : UInt8) :
    (((w &&& ~~~0xFF) ||| (b.toUInt32 &&& 0xFF)) &&& 0xFF).toUInt8 = b := by
  have rest : (w &&& ~~~0xFF).toUInt8 = 0 := by
    rw [UInt32.toUInt8_and]
    exact UInt8.and_zero
  rw [toUInt8_and, UInt32.toUInt8_or, rest, toUInt8_and]
  simp

theorem isNegative_eq (w : Word) : w.isNegative = decide (0x80000000 ≤ w.toNat) := by
  have bound := w.toNat_lt
  have top : (w >>> 31).toNat = w.toNat / 2 ^ 31 := by
    simp [UInt32.toNat_shiftRight, Nat.shiftRight_eq_div_pow]
  unfold isNegative
  rw [bne, Bool.eq_iff_iff]
  simp [← UInt32.toNat_inj, top]

theorem isNegative_eq_msb (w : Word) : w.isNegative = w.toBitVec.msb := by
  rw [isNegative_eq, BitVec.msb_eq_decide]
  simp

theorem isNegative_xor (a b : Word) :
    (a ^^^ b).isNegative = (a.isNegative ^^ b.isNegative) := by
  simp [isNegative_eq_msb]

theorem isNegative_and (a b : Word) :
    (a &&& b).isNegative = (a.isNegative && b.isNegative) := by
  simp [isNegative_eq_msb]

/-- A word that is a number below 2³² as it stands. -/
theorem toNat_natCast {n : Nat} (small : n < 0x100000000) : n.toUInt32.toNat = n := by
  simpa using small

theorem toNat_add_of_lt {a b : Word} (small : a.toNat + b.toNat < 0x100000000) :
    (a + b).toNat = a.toNat + b.toNat := by
  rw [UInt32.toNat_add]
  exact Nat.mod_eq_of_lt small

theorem toNat_sub_of_le {a b : Word} (le : b.toNat ≤ a.toNat) :
    (a - b).toNat = a.toNat - b.toNat := by
  have bound := a.toNat_lt
  rw [UInt32.toNat_sub]
  omega

/-- A word is the sum of its parts outside and inside a mask. -/
theorem and_not_add_and (w mask : Word) : (w &&& ~~~mask) + (w &&& mask) = w := by
  apply UInt32.toBitVec_inj.mp
  rw [UInt32.toBitVec_add, BitVec.add_eq_or_of_and_eq_zero]
  · ext i bound
    simp only [UInt32.toBitVec_and, UInt32.toBitVec_not, BitVec.getElem_or, BitVec.getElem_and,
      BitVec.getElem_not]
    cases w.toBitVec[i] <;> cases mask.toBitVec[i] <;> rfl
  · ext i bound
    simp only [UInt32.toBitVec_and, UInt32.toBitVec_not, BitVec.getElem_and, BitVec.getElem_not,
      BitVec.getElem_zero]
    cases w.toBitVec[i] <;> cases mask.toBitVec[i] <;> rfl

/-- Clearing the low bits rounds down to a multiple of a power of two. -/
theorem toNat_and_not {mask : Word} (width : Nat) (low : mask.toNat = 2 ^ width - 1) (w : Word) :
    (w &&& ~~~mask).toNat = w.toNat / 2 ^ width * 2 ^ width := by
  have part : (w &&& mask).toNat = w.toNat % 2 ^ width := by
    rw [UInt32.toNat_and, low, Nat.and_two_pow_sub_one_eq_mod]
  have le : (w &&& ~~~mask).toNat ≤ w.toNat := by
    rw [UInt32.toNat_and]
    exact Nat.and_le_left
  have sum := congrArg UInt32.toNat (and_not_add_and w mask)
  rw [UInt32.toNat_add, part] at sum
  have bound := w.toNat_lt
  have whole := Nat.div_add_mod' w.toNat (2 ^ width)
  have small : w.toNat % 2 ^ width ≤ w.toNat := Nat.mod_le _ _
  omega

end Word

/-- Numbers in code wrap to 64 bits, and machine words keep 32 of them. -/
theorem ofInt_wrap (n : Int) : Word.ofInt (Codegen.wrap n) = Word.ofInt n := by
  unfold Word.ofInt Codegen.wrap
  congr 1
  apply Int32.toInt_inj.mp
  rw [Int32.toInt_ofInt, Int32.toInt_ofInt]
  exact Int.bmod_bmod_of_dvd (by decide)

/-- The allocator rounds up to a multiple of eight. -/
theorem Routine.toNat_roundUp {w : Word} (small : w.toNat + 7 < 0x100000000) :
    (Routine.roundUp w).toNat = (w.toNat + 7) / 8 * 8 := by
  rw [Routine.roundUp, Word.toNat_and_not 3 rfl, Word.toNat_add_of_lt small]
  rfl

namespace Flags

theorem less_ofSub (a b : Word) :
    ((ofSub a b).sign != (ofSub a b).overflow) = decide (a.toInt < b.toInt) := by
  have boundA := a.toNat_lt
  have boundB := b.toNat_lt
  have difference : (a - b).toNat = (0x100000000 - b.toNat + a.toNat) % 0x100000000 := by
    simp [UInt32.toNat_sub]
  simp only [ofSub, withResult, Word.isNegative_and, Word.isNegative_xor]
  simp only [Word.isNegative_eq, Word.toInt_eq]
  generalize (a - b).toNat = c at difference
  generalize a.toNat = x at *
  generalize b.toNat = y at *
  rw [Bool.eq_iff_iff]
  by_cases signA : 0x80000000 ≤ x <;> by_cases signB : 0x80000000 ≤ y <;>
    by_cases signC : 0x80000000 ≤ c <;> simp [signA, signB, signC] <;> omega

theorem zero_ofSub (a b : Word) : (ofSub a b).zero = decide (a.toInt = b.toInt) := by
  have boundA := a.toNat_lt
  have boundB := b.toNat_lt
  rw [Bool.eq_iff_iff]
  simp only [ofSub, withResult, beq_iff_eq, sub_eq_zero, ← UInt32.toNat_inj, Word.toInt_eq,
    decide_eq_true_eq]
  omega

end Flags

end Onepass.Machine
