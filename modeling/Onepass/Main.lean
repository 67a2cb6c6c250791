import Onepass.Tool.Compile
import Onepass.Tool.Console
import Onepass.Tool.Dump

/-! The command line. The program is one executable for three tools: called by the name `dump` or
`console` it is that tool, by any other name it is the compile tool. -/
namespace Onepass.Tool

/-- The bytes of a text as a file name; what is no character is replaced. -/
def fileName (path : Bytes) : String := String.ofList (Utf8.decode path)

/-- Runs a file operation and turns its failure into a reason. -/
def attempt {α : Type} (path : Bytes) (action : IO α) : IO (Except FileError α) := do
  try
    return .ok (← action)
  catch e =>
    let reason : FileError.Reason :=
      match e with
      | .noFileOrDirectory .. => .notFound
      | _ => .other (Bytes.ofString (toString e))
    return .error ⟨.opening, path, reason⟩

/-- All that is left of a stream. -/
partial def readAll (stream : IO.FS.Stream) (done : ByteArray) : IO ByteArray := do
  let piece ← stream.read 4096
  if piece.isEmpty then return done else readAll stream (done ++ piece)

/-- Writes a byte string as a whole. -/
def writeAll (stream : IO.FS.Stream) (text : Bytes) : IO Unit := do
  stream.write text.toByteArray
  stream.flush

instance : Host IO where
  readFile path := attempt path do return (← IO.FS.readBinFile (fileName path)).data.toList
  writeFile path contents :=
    attempt path (IO.FS.writeBinFile (fileName path) contents.toByteArray)
  readInput := do return (← readAll (← IO.getStdin) .empty).data.toList
  writeOutput text := do writeAll (← IO.getStdout) text
  writeError text := do writeAll (← IO.getStderr) text
  workingDirectory := do return Bytes.ofString (← IO.currentDir).toString

end Onepass.Tool

open Onepass in
def main (arguments : List String) : IO UInt32 := do
  let arguments := arguments.map Bytes.ofString
  let name := ((← IO.appPath).fileStem).getD ""
  let code ←
    if name = "dump" then Tool.Dump.run arguments
    else if name = "console" then Tool.Console.run arguments
    else Tool.Compile.run arguments
  return code.toUInt32
