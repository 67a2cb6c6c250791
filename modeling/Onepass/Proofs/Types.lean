import Mathlib
import Onepass.Ty

/-! Types as operands. Two types agree when they differ at most in the constant mark, which is what
their names say, and operands whose types agree have a common type. Taking it is a partial operation
that is commutative, associative and idempotent, and that gives up where an operand has no type. -/
namespace Onepass

/-- Different shapes are written differently. -/
theorem Shape.name_injective : Function.Injective Shape.name := by
  intro a b same
  -- the first byte tells the constructors apart, and the rest of the name of an array is that of its
  -- elements
  induction a generalizing b with
  | array element ih =>
    cases b with
    | array inner => exact congrArg Shape.array (ih (List.append_cancel_left same))
    | int | char | string | other => cases congrArg List.head? same
  | int | char | string | other =>
    cases b with
    | array inner => cases congrArg List.head? same
    | int | char | string | other => first | rfl | cases congrArg List.head? same

namespace Ty

variable {a b u : Ty}

theorem compatible_iff : a.compatible b = true ↔ a.shape = b.shape := by
  rw [compatible, beq_iff_eq]

theorem general_eq_iff : a.general = b.general ↔ a.shape = b.shape := by
  rw [general, general, Ty.mk.injEq, and_iff_left rfl]

/-- Arrays are told apart by their elements only. -/
theorem compatible_arrayOf (a b : Ty) : (arrayOf a).compatible (arrayOf b) = a.compatible b := by
  rw [Bool.eq_iff_iff, compatible_iff, compatible_iff]
  exact ⟨Shape.array.inj, congrArg Shape.array⟩

theorem name_eq_iff : a.name = b.name ↔ a.shape = b.shape := Shape.name_injective.eq_iff

/-- The common type has the mark only where both types have it, whichever of the two it is. -/
theorem union?_eq (a b : Ty) :
    a.union? b = if a.shape = b.shape then some ⟨a.shape, a.constant && b.constant⟩ else none := by
  obtain ⟨left, marked⟩ := a
  obtain ⟨right, otherMarked⟩ := b
  by_cases same : left = right
  · subst same
    cases marked <;> cases otherMarked <;> simp [union?, compatible]
  · simp [union?, compatible, same]

theorem union?_eq_none_iff : a.union? b = none ↔ a.compatible b = false := by
  rw [union?_eq, ← Bool.not_eq_true, compatible_iff, ite_eq_right_iff]
  simp

theorem union?_eq_some_iff :
    a.union? b = some u ↔
      a.shape = u.shape ∧ b.shape = u.shape ∧ u.constant = (a.constant && b.constant) := by
  obtain ⟨shape, constant⟩ := u
  rw [union?_eq]
  constructor
  · intro found
    split at found
    · rename_i same
      cases found
      exact ⟨rfl, same.symm, rfl⟩
    · cases found
  · rintro ⟨left, right, mark⟩
    dsimp only at left right mark
    rw [if_pos (left.trans right.symm), left, mark]

theorem union?_comm (a b : Ty) : a.union? b = b.union? a := by
  ext u
  rw [union?_eq_some_iff, union?_eq_some_iff, Bool.and_comm, and_left_comm]

theorem union_eq_none_iff (a b : Option Ty) : union a b = none ↔ agree a b = false := by
  obtain _ | a := a
  · exact iff_of_true rfl rfl
  obtain _ | b := b
  · exact iff_of_true rfl rfl
  exact union?_eq_none_iff

theorem union_none (a : Option Ty) : union a none = none := by
  cases a <;> rfl

theorem union_assoc (a b c : Option Ty) : union (union a b) c = union a (union b c) := by
  obtain _ | a := a
  · rfl
  obtain _ | b := b
  · rfl
  obtain _ | c := c
  · rw [union_none, union_none, union_none]
  have known (x y : Ty) : union (some x) (some y) =
      if x.shape = y.shape then some ⟨x.shape, x.constant && y.constant⟩ else none := union?_eq x y
  rw [known a b, known b c]
  by_cases left : a.shape = b.shape
  · by_cases right : b.shape = c.shape
    · rw [if_pos left, if_pos right, known, known, if_pos (left.trans right), if_pos left,
        Bool.and_assoc]
    · rw [if_pos left, if_neg right, known, if_neg (left ▸ right), union_none]
  · rw [if_neg left]
    split
    · rw [known, if_neg left]
      rfl
    · rfl

end Ty

end Onepass
