import Onepass.Assembly.Printer
import Onepass.Text.Quoted

/-! The platforms code is generated for: how library symbols are named, which directive opens
read-only data, and whether the stack is aligned at calls. -/
namespace Onepass

inductive Platform
  | linux
  | windows
  | darwin
deriving DecidableEq

namespace Platform

def all : List Platform := [.linux, .windows, .darwin]

def name : Platform → Bytes
  | .linux => "linux"
  | .windows => "windows"
  | .darwin => "darwin"

def ofName? (name : Bytes) : Option Platform := all.find? (·.name = name)

/-- What is reported about a name that no platform has. -/
def unknownMessage (name : Bytes) : Bytes := "unknown target " ++ Quoted.text name

/-- The platform of the machine the tools run on. -/
def host : Platform := .linux

/-- What precedes the names of library symbols. -/
def symbolStart : Platform → Bytes
  | .linux => []
  | .windows | .darwin => "_"

/-- The platform's name for a library symbol. -/
def symbol (p : Platform) (name : Bytes) : Bytes := p.symbolStart ++ name

/-- The directive that opens read-only data. -/
def dataSection : Platform → Assembly.Directive
  | .linux => ⟨Assembly.sectionDirective, [.symbol ".rodata"]⟩
  | .windows => ⟨Assembly.sectionDirective, [.symbol ".rdata", .text "dr"]⟩
  | .darwin => ⟨".data", []⟩

/-- Whether the stack pointer must be a multiple of 16 at every call. -/
def alignsCalls : Platform → Bool
  | .darwin => true
  | _ => false

end Platform

end Onepass
