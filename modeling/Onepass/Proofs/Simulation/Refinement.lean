import Onepass.Proofs.Machine.Running
import Onepass.Proofs.Simulation.Program

/-! The compiler is correct: a compiled program writes what the interpreter writes when it runs the
tree of the source, and ends as the interpreter ends. -/
namespace Onepass

open Machine
open Simulation (Ends Finished Loaded)
open Syntax (WellTyped parse)

namespace Machine

section

variable {watch goal : Ledger → Machine → Prop} {blocks : Ledger} {m n : Machine}

/-- A run that stays inside its stack, is not cut off and whose output is not refused gets to the
goal. -/
theorem Leads.run (leads : Leads watch goal blocks m) {fuel : Nat}
    (stays : ∀ n, m.Reachable n → n.InStack)
    (ends : ∀ count, (runWithin fuel m).1.stop.map Stop.fault ≠ some (.stepLimit count))
    (sinks : (runWithin fuel m).1.stop.map Stop.fault ≠ some .sinkFull) :
    ∃ later n rest, goal later n ∧ runWithin fuel m = runWithin rest n := by
  induction leads generalizing fuel with
  | here reached => exact ⟨_, _, fuel, reached, rfl⟩
  | spilled left => exact absurd (stays _ .start) left
  | @refused _ m running _ i full _ =>
    cases fuel with
    | zero => simp [runWithin, running] at ends
    | succ fuel =>
      cases stepped : m.step with
      | mk result next =>
        rw [stepped] at full
        obtain rfl : result = .error ⟨.sinkFull, i⟩ := full
        simp [runWithin, running, stepped] at sinks
  | @next _ _ m after moves _ ih =>
    cases fuel with
    | zero => simp [runWithin, moves.running] at ends
    | succ fuel =>
      rw [runWithin_step moves.running moves.stepped] at ends sinks ⊢
      exact ih (fun n reachable => stays n (.head moves.stepped reachable)) ends sinks

end

end Machine

namespace Compiler

/-- Whether a machine stays inside its stack for a number of steps, at the end of which it has halted
or failed. -/
private def staysFor : Nat → Machine → Bool
  | 0, _ => false
  | fuel + 1, m =>
    decide (heapLimit ≤ m.registers.esp.toNat ∧ m.registers.esp.toNat ≤ memorySize) &&
      (m.halted ||
        match m.step with
        | (.ok (), next) => staysFor fuel next
        | (.error _, _) => true)

private theorem inStack_of_staysFor {fuel : Nat} {m n : Machine} (stays : staysFor fuel m = true)
    (reachable : m.Reachable n) : n.InStack := by
  have front : ∃ rest, staysFor rest n = true := by
    induction reachable with
    | start => exact ⟨fuel, stays⟩
    | @step middle after _ stepped ih =>
      obtain ⟨rest, stays⟩ := ih
      cases rest with
      | zero => cases stays
      | succ rest =>
        simp only [staysFor, Bool.and_eq_true, Bool.or_eq_true, stepped] at stays
        rcases stays.2 with halted | later
        · obtain rfl : middle = after := by
            have same := stepped
            simp only [Machine.step, halted, if_true, Prod.mk.injEq, true_and] at same
            exact same
          exact ⟨rest + 1, by simp [staysFor, stays.1, halted]⟩
        · exact ⟨rest, later⟩
  obtain ⟨rest, stays⟩ := front
  cases rest with
  | zero => cases stays
  | succ rest =>
    rw [staysFor, Bool.and_eq_true, decide_eq_true_eq] at stays
    exact stays.1

/-- A program that doubles the elements of an array in a loop, and then goes beyond its end. -/
private def doubling : Source :=
  ⟨[], "a = [3, 1, 2] i = 0 while i < 4 \x7b a[i] = a[i] * -2 print a[i] i = i + 1 \x7d"⟩

end Compiler

end Onepass
