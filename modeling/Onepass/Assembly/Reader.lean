import Onepass.Assembly.Basic
import Onepass.Assembly.Literal

/-! Reading assembly text. A text is read line by line: each line is first cut into atoms, dropping
blanks and comments, and then recognised as labels with an optional directive or instruction. All
lines are cut before any is recognised, so a stray character anywhere is reported first.

A literal that denotes nothing is reported as such when it is the second atom of its line, when it
follows a `$`, and when it is an argument of a directive after the first. In any other place it
cannot start an operand or argument, and the line is malformed. -/
namespace Onepass.Assembly

/-- The smallest parts of a line. -/
inductive Atom
  /-- A string literal, by the text between its quotes. -/
  | text (contents : Bytes)
  | label (name : Bytes)
  | directive (name : Bytes)
  | register (name : Bytes)
  | integer (digits : Bytes)
  | word (name : Bytes)
  /-- One of `$`, `(`, `)` and `,`. -/
  | mark (b : UInt8)
deriving DecidableEq

/-- Why a text is no assembly program. Lines and columns start at one. -/
inductive Unreadable
  /-- No atom starts here. -/
  | strayCharacter (line column : Nat)
  /-- The atoms of the line form neither a directive nor an instruction. -/
  | malformed (line : Nat)
  /-- A number or string on the line denotes nothing. -/
  | badLiteral (line : Nat)
deriving DecidableEq

def isLetter (b : UInt8) : Bool :=
  (97 ≤ b && b ≤ 122) || (65 ≤ b && b ≤ 90) || b == 95

def isDigit (b : UInt8) : Bool := 48 ≤ b && b ≤ 57

def isLower (b : UInt8) : Bool := 97 ≤ b && b ≤ 122

/-- Bytes of a name after its first. -/
def isNameByte (b : UInt8) : Bool := isLetter b || isDigit b || b == Bytes.code '.'

def isBlankByte (b : UInt8) : Bool := b == 32 || b == 9 || b == 13

def isMark (b : UInt8) : Bool :=
  b == Bytes.code '$' || b == Bytes.code '(' || b == Bytes.code ')' || b == Bytes.code ','

/-- What stands at the head of a line: an atom, or nothing for blanks and comments, and the number
of bytes it takes. -/
def atomAt? (first : UInt8) (rest : Bytes) : Option (Option Atom × Nat) :=
  if first = Bytes.code '#' then some (none, 1 + (rest.takeWhile (· ≠ 10)).length)
  else if first = Bytes.code '"' then
    (Literal.contents? rest).map fun contents => (some (.text contents), contents.length + 2)
  else if isLetter first then
    let name := first :: rest.takeWhile isNameByte
    if (rest.dropWhile isNameByte).head? = some (Bytes.code ':') then
      some (some (.label name), name.length + 1)
    else some (some (.word name), name.length)
  else if first = Bytes.code '.' then
    match rest with
    | b :: _ =>
      if isLetter b then
        let name := first :: rest.takeWhile fun b => isLetter b || isDigit b
        some (some (.directive name), name.length)
      else none
    | [] => none
  else if first = Bytes.code '%' then
    let name := rest.takeWhile isLower
    if name = [] then none else some (some (.register name), name.length + 1)
  else if isDigit first then
    let digits := first :: rest.takeWhile isDigit
    some (some (.integer digits), digits.length)
  else if first = Bytes.code '-' ∨ first = Bytes.code '+' then
    let digits := rest.takeWhile isDigit
    if digits = [] then none else some (some (.integer (first :: digits)), digits.length + 1)
  else if isMark first then some (some (.mark first), 1)
  else if isBlankByte first then some (none, 1)
  else none

/-- The atoms of a line after the next `skip` bytes, which end at byte `offset` of the line. The
error is the offset at which no atom starts. -/
def atomsFrom : (skip offset : Nat) → Bytes → Except Nat (List Atom)
  | _, _, [] => .ok []
  | skip + 1, offset, _ :: rest => atomsFrom skip (offset + 1) rest
  | 0, offset, b :: rest =>
    match atomAt? b rest with
    | none => .error offset
    | some (atom, length) => do
      let atoms ← atomsFrom (length - 1) (offset + 1) rest
      return atom.toList ++ atoms

/-- The atoms of one line. -/
def atoms (number : Nat) (line : Bytes) : Except Unreadable (List Atom) :=
  match atomsFrom 0 0 line with
  | .ok atoms => .ok atoms
  | .error offset => .error (.strayCharacter number (Utf8.length (line.take offset) + 1))

/-- Cuts atoms at the commas. -/
def splitCommas : List Atom → List (List Atom)
  | [] => [[]]
  | atom :: rest =>
    if atom = .mark (Bytes.code ',') then [] :: splitCommas rest
    else
      match splitCommas rest with
      | [] => [[atom]]
      | part :: parts => (atom :: part) :: parts

/-- A list with commas between its items; no atoms are the empty list. Items after the first are
read by `later`. -/
def commaList {α : Type} (first later : List Atom → Except Unreadable α) (atoms : List Atom) :
    Except Unreadable (List α) :=
  if atoms = [] then .ok []
  else
    match splitCommas atoms with
    | [] => .ok []
    | item :: items => do
      let head ← first item
      let tail ← items.mapM later
      return head :: tail

/-- The integer of some digits; `bad` tells what is wrong when there is none. -/
def integer (bad : Unreadable) (digits : Bytes) : Except Unreadable Int :=
  match Literal.integer? digits with
  | some n => .ok n
  | none => .error bad

/-- A number or a symbol; `bad` tells what is wrong with a literal that denotes nothing. -/
def value (number : Nat) (bad : Unreadable) : Atom → Except Unreadable Value
  | .integer digits => return .number (← integer bad digits)
  | .word name => .ok (.symbol name)
  | _ => .error (.malformed number)

/-- The end of a list: no atom may be left over. -/
def ending {α : Type} (number : Nat) (result : α) : List Atom → Except Unreadable α
  | [] => .ok result
  | _ => .error (.malformed number)

/-- A base register after its opening bracket, to the end of the operand. -/
def base (number : Nat) : List Atom → Except Unreadable Bytes
  | .register name :: .mark closing :: rest =>
    if closing = Bytes.code ')' then ending number name rest else .error (.malformed number)
  | _ => .error (.malformed number)

/-- The operand that all the atoms form. A literal is converted as soon as it is met; `bad` tells
what is wrong with one at the head that denotes nothing. -/
def operand (number : Nat) (bad : Unreadable) : List Atom → Except Unreadable Operand
  | [] => .error (.malformed number)
  | .register name :: rest => ending number (.register name) rest
  | .mark mark :: rest =>
    if mark = Bytes.code '$' then
      match rest with
      | atom :: rest => do
        ending number (.immediate (← value number (.badLiteral number) atom)) rest
      | [] => .error (.malformed number)
    else if mark = Bytes.code '(' then return .based none (← base number rest)
    else .error (.malformed number)
  | atom :: rest => do
    let offset ← value number bad atom
    match rest with
    | [] => return .absolute offset
    | bracket :: rest =>
      if bracket = .mark (Bytes.code '(') then return .based (some offset) (← base number rest)
      else .error (.malformed number)

/-- The argument that all the atoms form. A literal is converted as soon as it is met; `bad` tells
what is wrong with one that denotes nothing. -/
def argument (number : Nat) (bad : Unreadable) : List Atom → Except Unreadable Argument
  | .text contents :: rest =>
    match Literal.unquote? contents with
    | some bytes => ending number (.text bytes) rest
    | none => .error bad
  | .integer digits :: rest => do ending number (.number (← integer bad digits)) rest
  | .directive name :: rest => ending number (.symbol name) rest
  | .word name :: rest => ending number (.symbol name) rest
  | _ => .error (.malformed number)

/-- The directive or instruction that all the atoms form; `bad` tells what is wrong with a literal
after its first atom that denotes nothing. -/
def statement (number : Nat) (bad : Unreadable) :
    List Atom → Except Unreadable (Option Statement)
  | [] => .ok none
  | .directive name :: rest => do
    let arguments ←
      commaList (argument number bad) (argument number (.badLiteral number)) rest
    return some (.directive ⟨name, arguments⟩)
  | .word name :: rest => do
    let operands ← commaList (operand number bad) (operand number (.malformed number)) rest
    return some (.instruction ⟨name, operands⟩)
  | _ => .error (.malformed number)

/-- The labels at the head of a line, and what follows them. -/
def splitLabels : List Atom → List Bytes × List Atom
  | .label name :: rest =>
    let (names, atoms) := splitLabels rest
    (name :: names, atoms)
  | atoms => ([], atoms)

/-- The line with a number, from its atoms. -/
def line (number : Nat) (atoms : List Atom) : Except Unreadable Line := do
  let (labels, atoms) := splitLabels atoms
  let bad : Unreadable := if labels = [] then .badLiteral number else .malformed number
  return ⟨labels, ← statement number bad atoms⟩

/-- Applies a reader to every line with its number, from `number` on. -/
def numbered {α β : Type} (read : Nat → α → Except Unreadable β) :
    (number : Nat) → List α → Except Unreadable (List β)
  | _, [] => .ok []
  | number, item :: rest => do
    let first ← read number item
    let others ← numbered read (number + 1) rest
    return first :: others

/-- The lines of a text: one for every line of the text, so a line's number is its index plus
one. -/
def read (text : Bytes) : Except Unreadable Code := do
  let atoms ← numbered atoms 1 (Bytes.splitOn 10 text)
  numbered line 1 atoms

end Onepass.Assembly
