import Onepass.Text.Bytes

/-! What the command-line tools need from the machine they run on. -/
namespace Onepass.Tool

/-- Why a file cannot be read or written. -/
inductive FileError.Reason
  | notFound
  | isDirectory
  | notADirectory
  | nameTooLong
  | other (text : Bytes)
deriving DecidableEq

/-- What was tried on a file when it failed. -/
inductive FileError.Attempt
  | opening
  | reading
deriving DecidableEq

structure FileError where
  attempt : FileError.Attempt
  path : Bytes
  reason : FileError.Reason
deriving DecidableEq

namespace FileError

def Reason.message : Reason → Bytes
  | .notFound => "no such file or directory"
  | .isDirectory => "is a directory"
  | .notADirectory => "not a directory"
  | .nameTooLong => "file name too long"
  | .other text => text

def Attempt.name : Attempt → Bytes
  | .opening => "open"
  | .reading => "read"

def message (e : FileError) : Bytes :=
  e.attempt.name ++ " " ++ e.path ++ ": " ++ e.reason.message

end FileError

/-- Files, standard streams and the working directory. -/
class Host (m : Type → Type) where
  readFile : Bytes → m (Except FileError Bytes)
  writeFile : Bytes → Bytes → m (Except FileError Unit)
  readInput : m Bytes
  writeOutput : Bytes → m Unit
  writeError : Bytes → m Unit
  workingDirectory : m Bytes

export Host (readFile writeFile readInput writeOutput writeError workingDirectory)

end Onepass.Tool
