import Onepass.Machine.Step

/-! Running a program: from its entry to its end, a fault or a bound on the number of steps. -/
namespace Onepass.Machine

/-- Prepares a call of an entry that returns to the sentinel. -/
def start (m : Machine) (entry : Bytes) : Except Stop Unit × Machine :=
  match m.label? entry with
  | none => (.error ⟨.noEntry entry, none⟩, m)
  | some index =>
    match (Exec.push returnSentinel).run m with
    | (.ok (), next) => (.ok (), { next with pc := index })
    | (.error fault, next) => (.error ⟨fault, none⟩, next)

/-- How a run ends. -/
structure Ending where
  status : Int
  stop : Option Stop := none
deriving DecidableEq

/-- Executes until the machine halts or stops, at most `fuel` instructions. -/
def runWithin : (fuel : Nat) → Machine → Ending × Machine
  | 0, m =>
    if m.halted then (⟨m.status, none⟩, m)
    else (⟨0, some ⟨.stepLimit m.steps, none⟩⟩, m)
  | fuel + 1, m =>
    if m.halted then (⟨m.status, none⟩, m)
    else
      match m.step with
      | (.ok (), next) => runWithin fuel next
      | (.error stop, next) => (⟨next.status, some stop⟩, next)

/-- The bound on the instructions of this machine. -/
def stepBound (m : Machine) : Int :=
  if m.maxSteps = 0 then (defaultMaxSteps : Int) else m.maxSteps

/-- Calls an entry and executes until it returns, the program ends itself, or a fault. -/
def run (m : Machine) (entry : Bytes) : Ending × Machine :=
  match m.start entry with
  | (.error stop, next) => (⟨0, some stop⟩, next)
  | (.ok (), next) => runWithin (next.stepBound - next.steps).toNat next

/-- The line of a trace for the next instruction. -/
def traceLine (m : Machine) (i : Instr) : Bytes :=
  let shown (w : Word) := Numeral.padded 16 8 w.toNat
  Text.padLeft 4 (Numeral.decimal i.line) ++ "  " ++ Text.padRight 28 i.print ++ " eax=" ++
    shown m.registers.eax ++ " esi=" ++ shown m.registers.esi ++ " esp=" ++ shown m.registers.esp

/-- Executes until the machine halts or stops, with a line for every instruction, latest first.
There is no ending when `fuel` instructions were not enough. -/
def traceWithin : (fuel : Nat) → List Bytes → Machine → List Bytes × Option Ending × Machine
  | 0, log, m => (log, none, m)
  | fuel + 1, log, m =>
    if m.halted then (log, some ⟨m.status, none⟩, m)
    else
      match m.fetch? with
      | none =>
        match m.step with
        | (.ok (), next) => (log, some ⟨0, none⟩, next)
        | (.error stop, next) => (log, some ⟨0, some stop⟩, next)
      | some i =>
        let log := m.traceLine i :: log
        match m.step with
        | (.ok (), next) => traceWithin fuel log next
        | (.error stop, next) => (log, some ⟨next.status, some stop⟩, next)

/-- Calls an entry and executes it with a trace. -/
def trace (m : Machine) (entry : Bytes) (fuel : Nat) : List Bytes × Option Ending × Machine :=
  match m.start entry with
  | (.error stop, next) => ([], some ⟨0, some stop⟩, next)
  | (.ok (), next) =>
    let (log, ending, last) := traceWithin fuel [] next
    (log.reverse, ending, last)

end Onepass.Machine
