import Onepass.Machine.Instr

/-! Why a machine stops without a result. -/
namespace Onepass.Machine

inductive Fault
  | aborted
  /-- An access outside the memory in use. -/
  | badAccess (size : Nat) (address : Word)
  | leftProgram (index : Int)
  | stepLimit (steps : Nat)
  | divisionByZero
  | quotientOverflow
  | unknownRegister (name : Bytes)
  | notMemory (operand : Operand)
  | missingOperand (index count : Nat)
  | unsupported (mnemonic : Bytes)
  | undefinedRoutine (name : Bytes)
  | badConversion (letter : UInt8)
  | sinkFull
  | noEntry (name : Bytes)
  | dataTooLarge (size : Nat)
deriving DecidableEq

def Fault.message : Fault → Bytes
  | .aborted => "program aborted"
  | .badAccess size address =>
    "segmentation fault: access of " ++ Numeral.decimal size ++ " bytes at 0x" ++
      Numeral.hex address.toNat
  | .leftProgram index =>
    "segmentation fault: execution left the program at instruction " ++ Numeral.decimal index
  | .stepLimit steps =>
    "step limit exceeded after " ++ Numeral.decimal steps ++ " instructions"
  | .divisionByZero => "integer division fault: division by zero"
  | .quotientOverflow => "integer division fault: quotient overflow"
  | .unknownRegister name => "unknown register %" ++ name
  | .notMemory operand => "expected memory operand, found " ++ operand.print
  | .missingOperand index count =>
    "operand " ++ Numeral.decimal (index + 1) ++ " of " ++ Numeral.decimal count ++ " is missing"
  | .unsupported mnemonic => "unsupported instruction " ++ mnemonic
  | .undefinedRoutine name => "call to undefined function " ++ name
  | .badConversion letter =>
    "printf: unsupported conversion %" ++ Utf8.encodeChar (Char.ofNat letter.toNat)
  | .sinkFull => "sink full"
  | .noEntry name => "entry point " ++ name ++ " not found"
  | .dataTooLarge size =>
    "data section of " ++ Numeral.decimal size ++ " bytes does not fit in memory"

/-- A fault of a run, with the instruction it happened in unless the run itself ended there. -/
structure Stop where
  fault : Fault
  instr : Option Instr := none
deriving DecidableEq

def Stop.message (s : Stop) : Bytes :=
  match s.instr with
  | none => s.fault.message
  | some i =>
    "line " ++ Numeral.decimal i.line ++ ": " ++ i.print ++ ": " ++ s.fault.message

end Onepass.Machine
