import Onepass.Compiler
import Onepass.Machine.Run
import Onepass.Path
import Onepass.Tool.Host
import Onepass.Tool.Options

/-! The compile tool: compiles a file or standard input, and writes the assembly or runs it. -/
namespace Onepass.Tool.Compile

variable {m : Type → Type} [Monad m] [Host m]

/-- The status that the system sees of an exit status. -/
def exitCode (status : Int) : Nat := (status % 256).toNat

/-- A failed program does not exit with zero. -/
def failureStatus (status : Int) : Int := if status = 0 then 1 else status

/-- Prints how the tool is used after a message, if there is one. -/
def refuse (message? : Option Bytes) (code : Nat) : m Nat := do
  match message? with
  | some message => writeError (message ++ "\n")
  | none => pure ()
  writeError Options.usage
  return code

/-- The assembly of a file, or of standard input when there is no path; else what to report. -/
def compileInput (path : Bytes) (platform : Platform) : m (Except Bytes Bytes) := do
  let text : Except Bytes Bytes ←
    if path = [] then pure (.ok (← readInput))
    else
      match ← readFile path with
      | .ok text => pure (.ok text)
      | .error e =>
        pure (.error ("failed to read input file " ++ Quoted.text path ++ ": " ++ e.message))
  match text with
  | .error message => return .error message
  | .ok text =>
    match compile ⟨path, text⟩ platform with
    | .ok assembly => return .ok assembly
    | .error failure => return .error failure.message

/-- Assembles and runs a program: its output, its status and what stopped it. -/
def execute (assembly : Bytes) (platform : Platform) : Bytes × Int × Option Bytes :=
  match Assembly.assemble assembly with
  | .error fault => ([], 0, some ("assembly failed: " ++ fault.message))
  | .ok image =>
    match Machine.load {} image with
    | .error fault => ([], 0, some fault.message)
    | .ok machine =>
      let (ending, machine) := machine.run (platform.symbol "main")
      (machine.sink.written, ending.status, ending.stop.map Machine.Stop.message)

/-- Runs a program with its output on standard output. -/
def runProgram (assembly : Bytes) (platform : Platform) : m Nat := do
  let (output, status, failure) := execute assembly platform
  writeOutput output
  match failure with
  | none => return exitCode status
  | some message =>
    writeError ("run failed: " ++ message ++ "\n")
    return exitCode (failureStatus status)

/-- Writes the assembly to the file that the options or the input's path tell, or to standard
output. -/
def writeAssembly (assembly output path : Bytes) : m Nat := do
  let output := if output = [] ∧ path ≠ [] then Path.assembly path else output
  if output = [] ∨ output = "-" then
    writeOutput assembly
    return 0
  else
    match ← writeFile output assembly with
    | .ok () => return 0
    | .error e =>
      writeError
        ("failed to write assembly file " ++ Quoted.text output ++ ": " ++ e.message ++ "\n")
      return 1

/-- The tool, from its arguments to its exit code. -/
def run (arguments : List Bytes) : m Nat := do
  match Options.read {} arguments with
  | .error .help => refuse none 0
  | .error refusal => refuse refusal.message? 2
  | .ok options =>
    match options.operands with
    | _ :: _ :: _ => refuse none 2
    | operands =>
      match Platform.ofName? options.platform with
      | none =>
        writeError (Platform.unknownMessage options.platform ++ "\n")
        return 2
      | some platform =>
        let path := operands.headD []
        match ← compileInput path platform with
        | .error message =>
          writeError (message ++ "\n")
          return 1
        | .ok assembly =>
          if options.run then runProgram assembly platform
          else writeAssembly assembly options.output path

end Onepass.Tool.Compile
