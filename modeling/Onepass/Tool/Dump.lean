import Onepass.Compiler
import Onepass.Syntax.Parser
import Onepass.Tool.Host

/-! The dump tool: shows every stage of a compilation, up to the first fault. -/
namespace Onepass.Tool.Dump

variable {m : Type → Type} [Monad m] [Host m]

/-- What is shown when no file is named. -/
def sample : Source := ⟨"<builtin>", "x = 10\na = [x, 20]\nprint a[1]\n"⟩

/-- One row of the token table. -/
def tokenRow (source : Source) (t : Token) : Bytes :=
  "  " ++ Text.padRight 8 t.kind.name ++ " " ++ Text.padRight 12 t.describe ++ " " ++
    source.describe t.position ++ "\n"

/-- Reports a fault of a stage. -/
def failed (stage message : Bytes) : m Nat := do
  writeError (stage ++ " error: " ++ message ++ "\n")
  return 1

/-- The generated code and the variables. -/
def showCode (source : Source) : m Nat := do
  let outcome := Compiler.run source .host
  match outcome.result with
  | .error failure => failed "codegen" failure.message
  | .ok () =>
    writeOutput ("Generated Assembly (target " ++ Platform.host.name ++ ", " ++
      Numeral.decimal outcome.builder.strings.length ++ " string constants)\n")
    writeOutput (outcome.builder.text ++ "\n")
    writeOutput (outcome.scope.table Ty.name)
    return 0

/-- The syntax tree and what follows it. -/
def showTree (source : Source) : m Nat := do
  match Syntax.parse source with
  | .error d => failed "parse" d.message
  | .ok statements =>
    writeOutput "AST\n"
    writeOutput (statements.flatMap fun s => "  " ++ s.render ++ "\n")
    writeOutput "\n"
    showCode source

/-- All stages of a source. -/
def showStages (source : Source) : m Nat := do
  writeOutput ("Source:\n" ++ source.text ++ "\n")
  let stream := TokenStream.ofSource source
  match stream.fault with
  | some d => failed "scan" d.message
  | none =>
    writeOutput ("Tokens (" ++ Numeral.decimal stream.tokens.length ++ ")\n")
    writeOutput (stream.tokens.flatMap (tokenRow source))
    writeOutput "\n"
    showTree source

/-- The tool, from its arguments to its exit code. -/
def run (arguments : List Bytes) : m Nat := do
  match arguments with
  | [] => showStages sample
  | path :: _ =>
    match ← readFile path with
    | .error e => failed "read" e.message
    | .ok text => showStages ⟨path, text⟩

end Onepass.Tool.Dump
