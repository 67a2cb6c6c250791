import Onepass.Proofs.Simulation.Stack

/-! What it means for code to compute a value. It leads a machine that stands for a state to one that
stands for the state after the evaluation, with the value in its register; if the evaluation stops,
it leads to a step that fails for the same reason. -/
namespace Onepass.Simulation

open Assembly (Code)
open Interpreter (Value State Eval Cell)
open Machine

/-- How a run ends when the interpreter ends in some way. -/
inductive Ends : Except Interpreter.Stop Unit → Ending → Prop where
  | finished : Ends (.ok ()) ⟨0, none⟩
  | bounds : Ends (.error .bounds) ⟨Routine.abortStatus, some ⟨.aborted, none⟩⟩
  | divisionByZero (i : Instr) :
      Ends (.error .divisionByZero) ⟨0, some ⟨.divisionByZero, some i⟩⟩
  | quotientOverflow (i : Instr) :
      Ends (.error .quotientOverflow) ⟨0, some ⟨.quotientOverflow, some i⟩⟩
  /-- Going through a null pointer fails below the data. -/
  | null {size : Nat} {a : Word} (below : a < Assembly.dataBase) (i : Instr) :
      Ends (.error .null) ⟨0, some ⟨.badAccess size a, some i⟩⟩
  /-- The header of an array that was not allocated cannot be set. -/
  | outOfMemory (i : Instr) : Ends (.error .outOfMemory) ⟨0, some ⟨.badAccess 4 0, some i⟩⟩

/-- Whether the next step of a machine fails for a reason, after the output of a state. -/
structure Fails (P : Setting) (s : State) (reason : Interpreter.Stop) (blocks : Ledger)
    (m : Machine) : Prop where
  running : m.halted = false
  watched : P.Watch blocks m
  output : m.sink.written = P.written ++ s.output
  stopped : ∃ stop after, m.step = (.error stop, after) ∧ after.sink = m.sink ∧
    Ends (.error reason) ⟨after.status, some stop⟩

/-- What becomes of a machine that computes a value of a type, with words on its stack and code to
go on with. -/
inductive Computed (P : Setting) (s : State) (blocks : Ledger) (words : List Word) (rest : Code)
    (shape : Shape) : Except Interpreter.Stop Value × State → Ledger → Machine → Prop where
  | value {v : Value} {after : State} {later : Ledger} {n : Machine}
      (matched : Matches P after later words n) (before : Before P rest n)
      (held : Represents P after.heap later shape v (n.registers.get (resultRegister shape)))
      (grows : Grows s.heap after.heap blocks later) :
      Computed P s blocks words rest shape (.ok v, after) later n
  | stopped {reason : Interpreter.Stop} {after : State} {later : Ledger} {n : Machine}
      (fails : Fails P after reason later n) :
      Computed P s blocks words rest shape (.error reason, after) later n

/-- Whether code computes what an evaluation gives. -/
def Computes (P : Setting) (code : Code) (shape : Shape) (action : Eval Value) : Prop :=
  ∀ ⦃s : State⦄ ⦃blocks : Ledger⦄ ⦃words : List Word⦄ ⦃rest : Code⦄ ⦃m : Machine⦄,
    Matches P s blocks words m → Before P (code ++ rest) m →
    Leads P.Watch (Computed P s blocks words rest shape (perform action s)) blocks m

section

variable {P : Setting} {s after : State} {blocks later : Ledger} {words : List Word}
  {rest code : Code} {shape : Shape} {m n : Machine}

theorem Computed.grow {outcome : Except Interpreter.Stop Value × State} {last : Ledger}
    (computed : Computed P after later words rest shape outcome last n)
    (grows : Grows s.heap after.heap blocks later) :
    Computed P s blocks words rest shape outcome last n := by
  cases computed with
  | value matched before held more => exact .value matched before held (grows.trans more)
  | stopped fails => exact .stopped fails

/-- What comes after a value is computed. -/
theorem Computes.andThen {β : Type} {action : Eval Value} {next : Value → Eval β}
    {result : Except Interpreter.Stop β × State → Ledger → Machine → Prop}
    (computes : Computes P code shape action) (matched : Matches P s blocks words m)
    (before : Before P (code ++ rest) m)
    (stopped : ∀ {reason : Interpreter.Stop} {after : State} {later : Ledger} {n : Machine},
      Fails P after reason later n → result (.error reason, after) later n)
    (onward : ∀ (v : Value) (after : State) (later : Ledger) (n : Machine),
      Matches P after later words n → Before P rest n →
      Represents P after.heap later shape v (n.registers.get (resultRegister shape)) →
      Grows s.heap after.heap blocks later →
      Leads P.Watch (result (perform (next v) after)) later n) :
    Leads P.Watch (result (perform (action >>= next) s)) blocks m := by
  refine (computes matched before).trans fun later n computed => ?_
  rw [perform_bind]
  generalize perform action s = outcome at computed
  cases computed with
  | value matched before held grows => exact onward _ _ _ _ matched before held grows
  | stopped fails => exact .here (stopped fails)

/-- A step after straight code that fails without an effect. -/
theorem At.fails {r : Registers} {memory : Memory} {flags : Flags} {fault : Fault} {i : Instr}
    {reason : Interpreter.Stop} (here : At P blocks m code r memory flags n)
    (output : m.sink.written = P.written ++ s.output) (watched : P.Watch blocks n)
    (stopped : n.step = (.error ⟨fault, some i⟩, n.next))
    (ends : Ends (.error reason) ⟨0, some ⟨fault, some i⟩⟩) : Fails P s reason blocks n where
  running := here.ready.running
  watched := watched
  output := by rw [here.sink]; exact output
  stopped := by
    have status : n.next.status = 0 := here.ready.status
    exact ⟨_, _, stopped, rfl, status ▸ ends⟩

/-- An evaluation that only reads the state. -/
theorem leads_value {v : Value} (matched : Matches P s blocks words m) (before : Before P rest m)
    (held : Represents P s.heap blocks shape v (m.registers.get (resultRegister shape))) :
    Leads P.Watch (Computed P s blocks words rest shape (.ok v, s)) blocks m :=
  .here (.value matched before held (.refl _ _))

end

end Onepass.Simulation
