import Onepass.Platform
import Onepass.Text.Quoted

/-! The options of the compile tool. Options start with one or two dashes and come before the
operands; a value follows after `=` or as the next argument. -/
namespace Onepass.Tool

structure Options where
  output : Bytes := []
  platform : Bytes := Platform.host.name
  run : Bool := false
  operands : List Bytes := []
deriving DecidableEq

/-- Why the arguments cannot be used. -/
inductive Options.Refusal
  | help
  | badForm (argument : Bytes)
  | undefined (name : Bytes)
  | noValue (name : Bytes)
  | notBoolean (value name : Bytes)
deriving DecidableEq

namespace Options

/-- What is reported about the arguments; a request for help is no fault. -/
def Refusal.message? : Refusal → Option Bytes
  | .help => none
  | .badForm argument => some ("bad flag syntax: " ++ argument)
  | .undefined name => some ("flag provided but not defined: -" ++ name)
  | .noValue name => some ("flag needs an argument: -" ++ name)
  | .notBoolean value name =>
    some ("invalid boolean value " ++ Quoted.text value ++ " for -" ++ name ++ ": parse error")

/-- The truth value a text stands for. -/
def boolean? (text : Bytes) : Option Bool :=
  let yes : List Bytes := ["1", "t", "T", "TRUE", "true", "True"]
  let no : List Bytes := ["0", "f", "F", "FALSE", "false", "False"]
  if yes.contains text then some true else if no.contains text then some false else none

/-- The name of an option argument without its dashes, when it starts with a dash and is longer
than that. -/
def option? : Bytes → Option Bytes
  | 45 :: 45 :: name => some name
  | 45 :: b :: name => some (b :: name)
  | _ => none

/-- Sets the option that takes a value. -/
def setValue (o : Options) (name value : Bytes) : Options :=
  if name = "o" then { o with output := value } else { o with platform := value }

/-- Reads arguments from left to right; a later value of an option replaces an earlier one. -/
def read (o : Options) : List Bytes → Except Refusal Options
  | [] => .ok o
  | argument :: rest =>
    match option? argument with
    | none => .ok { o with operands := argument :: rest }
    | some [] => .ok { o with operands := rest }
    | some (b :: text) =>
      if b = Bytes.code '-' ∨ b = Bytes.code '=' then .error (.badForm argument)
      else
        let name := (b :: text).takeWhile (· ≠ Bytes.code '=')
        let value? := ((b :: text).drop name.length).tail?
        if name = "run" then
          match value? with
          | none => read { o with run := true } rest
          | some value =>
            match boolean? value with
            | some run => read { o with run } rest
            | none => .error (.notBoolean value name)
        else if name = "o" ∨ name = "target" then
          match value?, rest with
          | some value, rest => read (o.setValue name value) rest
          | none, value :: rest => read (o.setValue name value) rest
          | none, [] => .error (.noValue name)
        else if name = "help" ∨ name = "h" then .error .help
        else .error (.undefined name)

/-- How the tool is used. -/
def usage : Bytes :=
  "usage: sofort [-o out.s] [-target linux|windows|darwin] [-run] [file]\n" ++
  "  -o string\n" ++
  "    \toutput assembly file path (default: input with .s extension, or stdout when reading stdin)\n" ++
  "  -run\n" ++
  "    \trun the generated program on the emulator instead of writing it\n" ++
  "  -target string\n" ++
  "    \ttarget platform: linux, windows or darwin (default " ++
  Quoted.text Platform.host.name ++ ")\n"

end Options

end Onepass.Tool
