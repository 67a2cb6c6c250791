import Onepass.Path
import Onepass.Tool.Host

/-! A host in memory: a tree of files, the standard streams and a working directory. Directories
exist as far as files or the working directory lie in them, beside those that every system has. -/
namespace Onepass.Tool

/-- Special files. -/
inductive Device
  /-- Always empty; what is written to it is lost. -/
  | null
  | input
  | output
  | errors
deriving DecidableEq

namespace Device

/-- The device at a place. -/
def ofPlace? : List Bytes → Option Device
  | [directory, name] =>
    let table : List (Bytes × Device) :=
      [("null", .null), ("stdin", .input), ("stdout", .output), ("stderr", .errors)]
    if directory = "dev" then table.lookup name else none
  | _ => none

end Device

/-- The directories at the root that every system has. -/
def systemDirectories : List Bytes := ["dev", "etc", "home", "tmp", "usr", "var"]

/-- The longest name in a directory, in bytes. -/
def maxNameLength : Nat := 255

/-- The longest path, in bytes. -/
def maxPathLength : Nat := 4095

/-- A file by the names on the way to it from the root. -/
structure StoredFile where
  path : List Bytes
  contents : Bytes
deriving DecidableEq

structure World where
  files : List StoredFile
  directory : List Bytes
  input : Bytes
  output : Bytes := []
  errors : Bytes := []
deriving DecidableEq

namespace World

def file? (w : World) (path : List Bytes) : Option StoredFile := w.files.find? (·.path = path)

def isDirectory (w : World) (path : List Bytes) : Bool :=
  path.isPrefixOf w.directory || systemDirectories.any (fun name => path == [name]) ||
    w.files.any fun file => path.isPrefixOf file.path && path != file.path

/-- Whether a file or a device is at a place. -/
def hasFile (w : World) (path : List Bytes) : Bool :=
  (w.file? path).isSome || (Device.ofPlace? path).isSome

/-- Follows names from a directory; every name but the last has to be a directory. -/
def walk (w : World) : (place : List Bytes) → List Bytes → Except FileError.Reason (List Bytes)
  | place, [] => .ok place
  | place, name :: rest =>
    if w.isDirectory place then
      if maxNameLength < name.length then .error .nameTooLong
      else
        walk w
          (if name = [] ∨ name = "." then place
            else if name = ".." then place.dropLast
            else place ++ [name])
          rest
    else if w.hasFile place then .error .notADirectory
    else .error .notFound

/-- The place that a path denotes. -/
def resolve (w : World) (path : Bytes) : Except FileError.Reason (List Bytes) :=
  if path = [] then .error .notFound
  else if maxPathLength < path.length then .error .nameTooLong
  else
    w.walk (if Path.isAbsolute path then [] else w.directory) (Bytes.splitOn Path.slash path)

/-- Puts contents at a place. -/
def put (w : World) (path : List Bytes) (contents : Bytes) : World :=
  match w.file? path with
  | some _ =>
    { w with
      files := w.files.map fun file => if file.path = path then ⟨path, contents⟩ else file }
  | none => { w with files := w.files ++ [⟨path, contents⟩] }

/-- What is read from a device. -/
def receive (w : World) : Device → Bytes
  | .input => w.input
  | .null | .output | .errors => []

/-- Writes to a device. -/
def send (w : World) (text : Bytes) : Device → World
  | .output => { w with output := w.output ++ text }
  | .errors => { w with errors := w.errors ++ text }
  | .null | .input => w

def read (w : World) (path : Bytes) : Except FileError Bytes :=
  match w.resolve path with
  | .error reason => .error ⟨.opening, path, reason⟩
  | .ok place =>
    if w.isDirectory place then .error ⟨.reading, path, .isDirectory⟩
    else
      match Device.ofPlace? place, w.file? place with
      | some device, _ => .ok (w.receive device)
      | none, some file => .ok file.contents
      | none, none => .error ⟨.opening, path, .notFound⟩

/-- Writes a file. A path that ends with a slash can only name a directory. -/
def write (w : World) (path contents : Bytes) : Except FileError World :=
  let name := Bytes.dropTrailing Path.slash path
  match w.resolve (if name = [] then path else name) with
  | .error reason => .error ⟨.opening, path, reason⟩
  | .ok place =>
    if w.isDirectory place ∨ name ≠ path then .error ⟨.opening, path, .isDirectory⟩
    else
      match Device.ofPlace? place with
      | some device => .ok (w.send contents device)
      | none => .ok (w.put place contents)

instance : Host (StateM World) where
  readFile path := return (← get).read path
  writeFile path contents := do
    match (← get).write path contents with
    | .ok w =>
      set w
      return .ok ()
    | .error e => return .error e
  readInput := return (← get).input
  writeOutput text := modify fun w => w.send text .output
  writeError text := modify fun w => w.send text .errors
  workingDirectory := return Path.slash :: Bytes.join [Path.slash] (← get).directory

/-- The files below the working directory that are new or changed since an earlier world. -/
def changedSince (w before : World) : List StoredFile :=
  w.files.filter fun file =>
    w.directory.isPrefixOf file.path && before.file? file.path != some file

/-- The path of a file as seen from the working directory. -/
def relativeName (w : World) (file : StoredFile) : Bytes :=
  Bytes.join [Path.slash] (file.path.drop w.directory.length)

end World

end Onepass.Tool
