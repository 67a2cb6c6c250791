import Onepass.Text.Bytes

/-! File paths with `/` between their elements. -/
namespace Onepass.Path

def slash : UInt8 := Bytes.code '/'

/-- The last dot of the last element and all that follows it; empty when there is no dot. -/
def extension (path : Bytes) : Bytes :=
  let element := (path.reverse.takeWhile (· ≠ slash))
  let tail := element.takeWhile (· ≠ Bytes.code '.')
  if tail.length < element.length then (Bytes.code '.') :: tail.reverse else []

/-- The extension of assembly files. -/
def assemblyExtension : Bytes := ".s"

/-- The assembly file beside a source file: the extension is replaced, or added to a path that has
it already. -/
def assembly (path : Bytes) : Bytes :=
  let ext := extension path
  if ext = assemblyExtension then path ++ assemblyExtension
  else path.take (path.length - ext.length) ++ assemblyExtension

/-- Whether the path starts at the root. -/
def isAbsolute (path : Bytes) : Bool := path.head? == some slash

/-- Adds an element to the elements of a cleaned path, the last of which comes first. -/
def pushElement (rooted : Bool) (elements : List Bytes) (element : Bytes) : List Bytes :=
  if element = [] ∨ element = "." then elements
  else if element = ".." then
    match elements with
    | [] => if rooted then [] else [element]
    | last :: before => if last = ".." then element :: elements else before
  else element :: elements

/-- The shortest path with the same meaning, as far as the text alone tells. -/
def clean (path : Bytes) : Bytes :=
  let rooted := isAbsolute path
  let elements := ((Bytes.splitOn slash path).foldl (pushElement rooted) []).reverse
  let body := Bytes.join [slash] elements
  if rooted then slash :: body else if body = [] then "." else body

/-- The directory that holds a path. -/
def directory (path : Bytes) : Bytes :=
  clean (path.reverse.dropWhile (· ≠ slash)).reverse

/-- The cleaned path, seen from a directory when it is relative. -/
def absolute (base path : Bytes) : Bytes :=
  if isAbsolute path then clean path else clean (base ++ [slash] ++ path)

end Onepass.Path
