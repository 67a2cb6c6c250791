import Mathlib
/-! Actions on a state that may fail and keep what was done before the failure. Code generation,
compilation, the machine and the evaluation of programs are such actions. -/
namespace Onepass

variable {ε σ α β : Type}

/-- The result of an action from a state, with the state it leaves. -/
def perform (action : ExceptT ε (StateM σ) α) (s : σ) : Except ε α × σ := (ExceptT.run action).run s

theorem perform_pure (a : α) (s : σ) :
    perform (pure a : ExceptT ε (StateM σ) α) s = (.ok a, s) := rfl

theorem perform_bind (action : ExceptT ε (StateM σ) α) (next : α → ExceptT ε (StateM σ) β) (s : σ) :
    perform (action >>= next) s =
      match perform action s with
      | (.ok a, after) => perform (next a) after
      | (.error e, after) => (.error e, after) := by
  simp only [perform, ExceptT.run_bind, StateT.run_bind]
  rcases (ExceptT.run action).run s with ⟨_ | _, _⟩ <;> rfl

theorem perform_get (s : σ) : perform (get : ExceptT ε (StateM σ) σ) s = (.ok s, s) := rfl

theorem perform_set (s after : σ) :
    perform (set after : ExceptT ε (StateM σ) PUnit) s = (.ok (), after) := rfl

@[simp] theorem ok_bind (a : α) (next : α → Except ε β) : (Except.ok a >>= next) = next a := rfl

/-- What a successful chain of two results is made of. -/
theorem bind_eq_ok {first : Except ε α} {next : α → Except ε β} {b : β} :
    (first >>= next) = .ok b ↔ ∃ a, first = .ok a ∧ next a = .ok b := by
  cases first with
  | error e => exact ⟨nofun, fun ⟨_, impossible, _⟩ => nomatch impossible⟩
  | ok a =>
    constructor
    · exact fun success => ⟨a, rfl, success⟩
    · rintro ⟨_, ⟨⟩, success⟩
      exact success

end Onepass
