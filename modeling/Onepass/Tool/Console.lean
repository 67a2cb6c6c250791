import Onepass.Tool.Compile

/-! The console tool: compiles a file and runs it, with the assembly and a trace on request. -/
namespace Onepass.Tool.Console

open Compile (exitCode failureStatus)

variable {m : Type → Type} [Monad m] [Host m]

/-- More instructions than any traced program executes. -/
def traceBound : Nat := 0x4000000000000000

/-- Ends the tool with a message. -/
def fatal (message : Bytes) : m Nat := do
  writeError (message ++ "\n")
  return 1

/-- Reports how a run ended. -/
def report (machine : Machine) (ending : Machine.Ending) : m Nat := do
  let count := Numeral.decimal machine.steps
  match ending.stop with
  | some stop =>
    writeError ("run failed after " ++ count ++ " instructions: " ++ stop.message ++ "\n")
    return exitCode (failureStatus ending.status)
  | none =>
    writeError ("run complete: " ++ count ++ " instructions, exit status " ++
      Numeral.decimal ending.status ++ "\n")
    return exitCode ending.status

/-- Runs a loaded machine, with a line for every instruction when asked. -/
def runMachine (machine : Machine) (trace : Bool) : m Nat := do
  let entry := Platform.host.symbol "main"
  let (log, ending, machine) : List Bytes × Option Machine.Ending × Machine :=
    if trace then machine.trace entry traceBound
    else
      let (ending, machine) := machine.run entry
      ([], some ending, machine)
  writeOutput machine.sink.written
  writeError (log.flatMap fun (line : Bytes) => line ++ [10])
  report machine (ending.getD ⟨0, some ⟨.stepLimit machine.steps, none⟩⟩)

/-- Assembles and runs the code of a source. -/
def runAssembly (assembly : Bytes) (trace : Bool) : m Nat := do
  match Assembly.assemble assembly with
  | .error fault =>
    writeError assembly
    fatal ("Assembly failed: " ++ fault.message)
  | .ok image =>
    match Machine.load {} image with
    | .error fault => fatal ("Load failed: " ++ fault.message)
    | .ok machine => runMachine machine trace

/-- The tool, from its arguments to its exit code. -/
def run (arguments : List Bytes) : m Nat := do
  match arguments with
  | [] => fatal "usage: console <file> [--show-asm] [--trace]"
  | file :: options =>
    let path := Path.absolute (← workingDirectory) file
    match ← readFile path with
    | .error e => fatal ("Failed to read source file: " ++ e.message)
    | .ok text =>
      writeError ("Compiling source file:" ++ path ++ "\n")
      writeError ("Base directory:" ++ Path.directory path ++ "\n")
      match compile ⟨path, text⟩ .host with
      | .error failure => fatal ("Compilation failed: " ++ failure.message)
      | .ok assembly =>
        if options.contains (Bytes.ofString "--show-asm") then
          writeError ("Generated Assembly:\n" ++ assembly ++ "\n")
        runAssembly assembly (options.contains (Bytes.ofString "--trace"))

end Onepass.Tool.Console
