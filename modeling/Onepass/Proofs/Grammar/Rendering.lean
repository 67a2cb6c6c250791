import Onepass.Proofs.Lexical.Writing
import Onepass.Proofs.Totality.Parser

/-! Expressions are read back from how they are shown. What a text can hold is restricted by its
lexemes: numbers are not negative, names are words, strings are characters, and only names are
indexed. For such expressions the brackets of the shown text bind as the tree does, and its pieces
do not run into each other. -/
namespace Onepass

/-- Whether programs can name a shape. -/
def Shape.isNamed : Shape → Bool
  | .int | .char | .string => true
  | .array element => element.isNamed
  | .other => false

namespace Syntax

open Grammar (Category More Phrase Selected Statement Statements TypeName)
open Lexeme (Apart Character Joined Yields apart_cons)

/-! The expressions of a tree. -/

mutual

/-- An expression and the expressions in it. -/
def Expr.parts : Expr → List Expr
  | .int value => [.int value]
  | .char value => [.char value]
  | .string value => [.string value]
  | .variable name => [.variable name]
  | .binary operator left right => .binary operator left right :: (left.parts ++ right.parts)
  | .negate operand => .negate operand :: operand.parts
  | .index left selector => .index left selector :: (left.parts ++ selector.parts)
  | .array first rest => .array first rest :: (first.parts ++ Expr.allParts rest)
  | .emptyArray element => [.emptyArray element]

def Expr.allParts : List Expr → List Expr
  | [] => []
  | first :: rest => first.parts ++ Expr.allParts rest

end

mutual

/-- The expressions in a statement. The target of an assignment is one of them. -/
def Stmt.parts : Stmt → List Expr
  | .declare _ value | .print value => value.parts
  | .assign name value => .variable name :: value.parts
  | .store container selector value => (Expr.index container selector).parts ++ value.parts
  | .ifThen condition body | .loop condition body => condition.parts ++ body.parts
  | .ifElse condition body other => condition.parts ++ (body.parts ++ other.parts)
  | .block body => Stmt.allParts body

def Stmt.allParts : List Stmt → List Expr
  | [] => []
  | first :: rest => first.parts ++ Stmt.allParts rest

end

mutual

/-- The names that an expression reads. -/
def Expr.names : Expr → List Bytes
  | .variable name => [name]
  | .int _ | .char _ | .string _ | .emptyArray _ => []
  | .binary _ left right | .index left right => left.names ++ right.names
  | .negate operand => operand.names
  | .array first rest => first.names ++ Expr.allNames rest

def Expr.allNames : List Expr → List Bytes
  | [] => []
  | first :: rest => first.names ++ Expr.allNames rest

end

mutual

/-- Whether the literals of an expression hold printable characters, newlines and tabs only. -/
def Expr.isPrintable : Expr → Bool
  | .char value => Lexeme.isShown (Quoted.charOfCode value.toInt)
  | .string value => (Utf8.decode value).all Lexeme.isShown
  | .int _ | .variable _ | .emptyArray _ => true
  | .binary _ left right | .index left right => left.isPrintable && right.isPrintable
  | .negate operand => operand.isPrintable
  | .array first rest => first.isPrintable && Expr.allPrintable rest

def Expr.allPrintable : List Expr → Bool
  | [] => true
  | first :: rest => first.isPrintable && Expr.allPrintable rest

end

/-! What a text can hold. -/

/-- Whether a byte string is a name. -/
def IsWord (name : Bytes) : Prop :=
  ∃ first rest, name = Utf8.encode (first :: rest) ∧ Lexeme.isLetter first = true ∧
    (∀ c ∈ rest, (Lexeme.isLetter c || c.isDigit) = true) ∧ Token.keywords.contains name = false

/-- Whether an expression is a name or a selection. -/
def Expr.isPath : Expr → Bool
  | .variable _ | .index _ _ => true
  | _ => false

mutual

/-- Whether an expression can be read from a text. -/
def Expr.IsWritable : Expr → Prop
  | .int value => 0 ≤ value.toInt
  | .char value => ∃ raw c, Character raw c ∧ value = Int32.ofNat c.toNat
  | .string value => ∃ text, value = Utf8.encode text
  | .variable name => IsWord name
  | .binary _ left right => left.IsWritable ∧ right.IsWritable
  | .negate operand => operand.IsWritable
  | .index left selector => left.isPath = true ∧ left.IsWritable ∧ selector.IsWritable
  | .array first rest => first.IsWritable ∧ Expr.AllWritable rest
  | .emptyArray element => element.isNamed = true

def Expr.AllWritable : List Expr → Prop
  | [] => True
  | first :: rest => first.IsWritable ∧ Expr.AllWritable rest

end

mutual

/-- What is part of a writable expression is writable. -/
theorem Expr.IsWritable.part {e part : Expr} (writable : e.IsWritable) (member : part ∈ e.parts) :
    part.IsWritable := by
  match e with
  | .int _ | .char _ | .string _ | .variable _ | .emptyArray _ =>
    obtain rfl := List.mem_singleton.mp member
    exact writable
  | .binary _ left right =>
    rcases List.mem_cons.mp member with rfl | inner
    · exact writable
    rcases List.mem_append.mp inner with inner | inner
    · exact Expr.IsWritable.part writable.1 inner
    · exact Expr.IsWritable.part writable.2 inner
  | .negate operand =>
    rcases List.mem_cons.mp member with rfl | inner
    · exact writable
    · exact Expr.IsWritable.part (e := operand) writable inner
  | .index left selector =>
    rcases List.mem_cons.mp member with rfl | inner
    · exact writable
    rcases List.mem_append.mp inner with inner | inner
    · exact Expr.IsWritable.part writable.2.1 inner
    · exact Expr.IsWritable.part writable.2.2 inner
  | .array first rest =>
    rcases List.mem_cons.mp member with rfl | inner
    · exact writable
    rcases List.mem_append.mp inner with inner | inner
    · exact Expr.IsWritable.part writable.1 inner
    · exact Expr.AllWritable.part writable.2 inner

theorem Expr.AllWritable.part {rest : List Expr} {part : Expr} (writable : Expr.AllWritable rest)
    (member : part ∈ Expr.allParts rest) : part.IsWritable := by
  match rest with
  | [] => cases member
  | first :: others =>
    rcases List.mem_append.mp member with inner | inner
    · exact Expr.IsWritable.part writable.1 inner
    · exact Expr.AllWritable.part writable.2 inner

end

/-- Whether a token stands for a lexeme. -/
def IsSpelled (token : Token) : Prop :=
  ∃ lexeme, Lexeme.Spells lexeme token ∧ Lexeme.InRange lexeme token

section

variable {token : Token}

theorem isWord_of_ident (spelled : IsSpelled token) (ident : token.kind = .ident) :
    IsWord token.text := by
  obtain ⟨lexeme, spells, _⟩ := spelled
  cases spells with
  | ident letter all other => exact ⟨_, _, rfl, letter, all, other⟩
  | int | keyword | op | char | string => cases ident

theorem value_of_int (spelled : IsSpelled token) (kind : token.kind = .int) :
    0 ≤ token.value.toInt := by
  obtain ⟨lexeme, spells, range⟩ := spelled
  cases spells with
  | int =>
    have small := range rfl
    rw [Int32.toInt_ofNat_of_lt small]
    exact Int.natCast_nonneg _
  | ident | keyword | op | char | string => cases kind

theorem character_of_char (spelled : IsSpelled token) (kind : token.kind = .char) :
    ∃ raw c, Character raw c ∧ token.value = Int32.ofNat c.toNat := by
  obtain ⟨lexeme, spells, _⟩ := spelled
  cases spells with
  | char contents => exact ⟨_, _, contents, rfl⟩
  | ident | keyword | op | int | string => cases kind

theorem text_of_string (spelled : IsSpelled token) (kind : token.kind = .string) :
    ∃ text, token.text = Utf8.encode text := by
  obtain ⟨lexeme, spells, _⟩ := spelled
  cases spells with
  | string => exact ⟨_, rfl⟩
  | ident | keyword | op | int | char => cases kind

end

namespace Grammar

theorem TypeName.isNamed {tokens : List Token} {shape : Shape} (type : TypeName tokens shape) :
    shape.isNamed = true := by
  induction type with
  | name _ named =>
    have known := List.mem_of_find?_eq_some named
    simp only [List.mem_cons, List.not_mem_nil, or_false] at known
    rcases known with rfl | rfl | rfl <;> rfl
  | array _ _ _ ih => exact ih

theorem Selected.isPath {names : List Bytes} {tokens : List Token} {e : Expr}
    (selected : Selected names tokens e) : e.isPath = true := by
  cases selected <;> rfl

mutual

/-- What is derived from lexemes is writable. -/
theorem Phrase.writable {names : List Bytes} {category : Category} {tokens : List Token} {e : Expr}
    (phrase : Phrase names category tokens e) (spelled : ∀ token ∈ tokens, IsSpelled token) :
    e.IsWritable := by
  match phrase with
  | .operand alone => exact alone.writable spelled
  | .binary before _ after =>
    exact ⟨before.writable fun token member => spelled token (by simp [member]),
      after.writable fun token member => spelled token (by simp [member])⟩
  | .negate _ inner => exact inner.writable fun token member => spelled token (by simp [member])
  | .plain inner => exact inner.writable spelled
  | .int kind => exact value_of_int (spelled _ (List.mem_singleton_self _)) kind
  | .char kind => exact character_of_char (spelled _ (List.mem_singleton_self _)) kind
  | .string kind => exact text_of_string (spelled _ (List.mem_singleton_self _)) kind
  | .selected inner => exact inner.writable spelled
  | .parentheses _ inner _ =>
    exact inner.writable fun token member => spelled token (by simp [member])
  | .emptyArray _ _ type => exact type.isNamed
  | .array _ head tail _ _ =>
    exact ⟨head.writable fun token member => spelled token (by simp [member]),
      tail.writable fun token member => spelled token (by simp [member])⟩

theorem Selected.writable {names : List Bytes} {tokens : List Token} {e : Expr}
    (selected : Selected names tokens e) (spelled : ∀ token ∈ tokens, IsSpelled token) :
    e.IsWritable := by
  match selected with
  | .name ident _ => exact isWord_of_ident (spelled _ (List.mem_singleton_self _)) ident
  | .index before _ inner _ =>
    exact ⟨before.isPath, before.writable fun token member => spelled token (by simp [member]),
      inner.writable fun token member => spelled token (by simp [member])⟩

theorem More.writable {names : List Bytes} {tokens : List Token} {rest : List Expr}
    (more : More names tokens rest) (spelled : ∀ token ∈ tokens, IsSpelled token) :
    Expr.AllWritable rest := by
  match more with
  | .none => trivial
  | .one _ head tail =>
    exact ⟨head.writable fun token member => spelled token (by simp [member]),
      tail.writable fun token member => spelled token (by simp [member])⟩

end

mutual

theorem Statement.writable {names later : List Bytes} {tokens : List Token} {s : Stmt}
    (derived : Statement names tokens s later) (spelled : ∀ token ∈ tokens, IsSpelled token) :
    ∀ part ∈ s.parts, part.IsWritable := by
  intro part member
  match derived with
  | .declare _ _ _ computed | .print _ computed =>
    exact (computed.writable fun token inside => spelled token (by simp [inside])).part member
  | .assign ident _ _ computed =>
    rcases List.mem_cons.mp member with rfl | inner
    · exact isWord_of_ident (spelled _ (List.mem_cons_self ..)) ident
    · exact (computed.writable fun token inside => spelled token (by simp [inside])).part inner
  | .store selected _ computed =>
    rcases List.mem_append.mp member with inner | inner
    · exact (selected.writable fun token inside => spelled token (by simp [inside])).part inner
    · exact (computed.writable fun token inside => spelled token (by simp [inside])).part inner
  | .ifThen _ computed body | .loop _ computed body =>
    rcases List.mem_append.mp member with inner | inner
    · exact (computed.writable fun token inside => spelled token (by simp [inside])).part inner
    · exact body.writable (fun token inside => spelled token (by simp [inside])) part inner
  | .ifElse _ computed body _ _ other =>
    rcases List.mem_append.mp member with inner | inner
    · exact (computed.writable fun token inside => spelled token (by simp [inside])).part inner
    rcases List.mem_append.mp inner with inner | inner
    · exact body.writable (fun token inside => spelled token (by simp [inside])) part inner
    · exact other.writable (fun token inside => spelled token (by simp [inside])) part inner
  | .block _ body _ =>
    exact body.writable (fun token inside => spelled token (by simp [inside])) part member

theorem Statements.writable {names later : List Bytes} {tokens : List Token} {body : List Stmt}
    (derived : Statements names tokens body later) (spelled : ∀ token ∈ tokens, IsSpelled token) :
    ∀ part ∈ Stmt.allParts body, part.IsWritable := by
  intro part member
  match derived with
  | .nil => cases member
  | .cons head tail =>
    rcases List.mem_append.mp member with inner | inner
    · exact head.writable (fun token inside => spelled token (by simp [inside])) part inner
    · exact tail.writable (fun token inside => spelled token (by simp [inside])) part inner

end

end Grammar

/-! Shown expressions. -/

namespace Grammar

variable {names : List Bytes} {tokens : List Token} {e : Expr}

theorem Phrase.of_unary (phrase : Phrase names .unary tokens e) (category : Category) :
    Phrase names category tokens e := by
  match category with
  | .unary => exact phrase
  | .factor => exact .plain phrase
  | .level .multiplicative => exact .operand (.plain phrase)
  | .level .additive => exact .operand (.operand (.plain phrase))
  | .level .relational => exact .operand (.operand (.operand (.plain phrase)))

theorem Phrase.of_level {level : Operator.Level} (phrase : Phrase names (.level level) tokens e) :
    Phrase names .expression tokens e := by
  match level with
  | .relational => exact phrase
  | .additive => exact .operand phrase
  | .multiplicative => exact .operand (.operand phrase)

end Grammar

theorem encode_space (text : List Char) :
    Utf8.encode (' ' :: text) = Bytes.ofString " " ++ Utf8.encode text :=
  rfl

/-- How an operator is written. -/
theorem exists_symbol (operator : Operator) :
    ∃ symbol, operator.symbol = Utf8.encode symbol ∧ symbol ∈ Lexeme.operators ∧
      ∃ level : Operator.Level, ∀ p,
        level.operator? ⟨.op, Utf8.encode symbol, 0, p⟩ = some operator := by
  match operator with
  | .add => exact ⟨['+'], rfl, by decide, .additive, fun _ => rfl⟩
  | .sub => exact ⟨['-'], rfl, by decide, .additive, fun _ => rfl⟩
  | .mul => exact ⟨['*'], rfl, by decide, .multiplicative, fun _ => rfl⟩
  | .div => exact ⟨['/'], rfl, by decide, .multiplicative, fun _ => rfl⟩
  | .compare .less => exact ⟨['<'], rfl, by decide, .relational, fun _ => rfl⟩
  | .compare .greater => exact ⟨['>'], rfl, by decide, .relational, fun _ => rfl⟩
  | .compare .lessEqual => exact ⟨['<', '='], rfl, by decide, .relational, fun _ => rfl⟩
  | .compare .greaterEqual => exact ⟨['>', '='], rfl, by decide, .relational, fun _ => rfl⟩
  | .compare .equal => exact ⟨['=', '='], rfl, by decide, .relational, fun _ => rfl⟩
  | .compare .notEqual => exact ⟨['!', '='], rfl, by decide, .relational, fun _ => rfl⟩

section

variable {names : List Bytes} {left right e : Expr} {rest : List Expr} {shape : Shape}
  {first second : List Char}

/-- A mark is the symbol that it looks like. -/
theorem yields_symbol {c : Char} (known : c ∈ ['+', '-', '*', '/', '(', ')', '[', ']', ',']) :
    Yields (fun _ => True)
      (fun list => ∃ token, list = [token] ∧ token.is (Utf8.encode [c]) = true) [c] := by
  refine (Yields.mark known).imp ?_
  rintro _ ⟨p, rfl⟩
  exact ⟨_, rfl, by simp [Token.is]⟩

/-- A bracketed operation. -/
theorem yields_binary {operator : Operator} {symbol : List Char}
    (known : symbol ∈ Lexeme.operators) {level : Operator.Level}
    (found : ∀ p, level.operator? ⟨.op, Utf8.encode symbol, 0, p⟩ = some operator)
    (one : Yields Apart (Phrase names .unary · left) first)
    (two : Yields Apart (Phrase names .unary · right) second) :
    Yields Apart (Phrase names .unary · (.binary operator left right))
      (['('] ++ (first ++ (' ' :: (symbol ++ (' ' :: (second ++ [')'])))))) := by
  have close := two.append (yields_symbol (c := ')') (by decide))
    fun rest _ => apart_cons rest (by decide)
  have sign := (Yields.operator known).append close.space fun _ _ => rfl
  have inner := one.append sign.space fun rest _ => apart_cons _ (by decide)
  have whole := (yields_symbol (c := '(') (by decide)).append inner fun _ _ => trivial
  refine (whole.weaken fun _ _ => trivial).imp ?_
  rintro _ ⟨_, _, rfl, ⟨_, rfl, opens⟩, _, _, rfl, before, _, _, rfl, ⟨p, rfl⟩, _, _, rfl, after,
    ⟨_, rfl, closes⟩⟩
  have computed := (Phrase.binary (before.of_unary (.level level)) (found p)
    (after.of_unary _)).of_level
  have whole : Phrase names .unary _ _ := .parentheses opens computed closes
  simpa using whole

/-- A bracketed negation. -/
theorem yields_negate (one : Yields Apart (Phrase names .unary · e) first) :
    Yields Apart (Phrase names .unary · (.negate e))
      (['('] ++ (['-'] ++ (' ' :: (first ++ [')'])))) := by
  have close := one.append (yields_symbol (c := ')') (by decide))
    fun rest _ => apart_cons rest (by decide)
  have inner := (yields_symbol (c := '-') (by decide)).append close.space fun _ _ => trivial
  have whole := (yields_symbol (c := '(') (by decide)).append inner fun _ _ => trivial
  refine (whole.weaken fun _ _ => trivial).imp ?_
  rintro _ ⟨_, _, rfl, ⟨_, rfl, opens⟩, _, _, rfl, ⟨_, rfl, minus⟩, _, _, rfl, operand,
    ⟨_, rfl, closes⟩⟩
  have computed : Phrase names .expression _ _ :=
    .operand (.operand (.operand (.negate minus operand)))
  have whole : Phrase names .unary _ _ := .parentheses opens computed closes
  simpa using whole

/-- A selection. -/
theorem yields_index (one : Yields Apart (Selected names · left) first)
    (two : Yields Apart (Phrase names .unary · right) second) :
    Yields Apart (Selected names · (.index left right))
      (first ++ (['['] ++ (second ++ [']']))) := by
  have close := two.append (yields_symbol (c := ']') (by decide))
    fun rest _ => apart_cons rest (by decide)
  have inner := (yields_symbol (c := '[') (by decide)).append close fun _ _ => trivial
  have whole := one.append inner fun rest _ => apart_cons _ (by decide)
  refine (whole.weaken fun _ _ => trivial).imp ?_
  rintro _ ⟨_, _, rfl, path, _, _, rfl, ⟨_, rfl, opens⟩, _, _, rfl, selector, ⟨_, rfl, closes⟩⟩
  have whole : Selected names _ _ := .index path opens (selector.of_unary .expression) closes
  simpa using whole

/-- An element after a comma. -/
theorem yields_more (one : Yields Apart (Phrase names .unary · e) first)
    (two : Yields Apart (More names · rest) second)
    (apart : ∀ more, Apart more → Apart (second ++ more)) :
    Yields Apart (More names · (e :: rest)) ([','] ++ (' ' :: (first ++ second))) := by
  have inner := one.append two apart
  have whole := (yields_symbol (c := ',') (by decide)).append inner.space fun _ _ => trivial
  refine whole.imp ?_
  rintro _ ⟨_, _, rfl, ⟨_, rfl, comma⟩, _, _, rfl, head, tail⟩
  have whole : More names _ _ := .one comma (head.of_unary .expression) tail
  simpa using whole

/-- An array literal. -/
theorem yields_array (one : Yields Apart (Phrase names .unary · e) first)
    (two : Yields Apart (More names · rest) second)
    (apart : ∀ more, Apart more → Apart (second ++ more)) :
    Yields Apart (Phrase names .unary · (.array e rest))
      (['['] ++ (first ++ (second ++ [']']))) := by
  have close := two.append (yields_symbol (c := ']') (by decide))
    fun rest _ => apart_cons rest (by decide)
  have inner := one.append close fun more _ => by
    rw [List.append_assoc]
    exact apart _ (apart_cons more (by decide))
  have whole := (yields_symbol (c := '[') (by decide)).append inner fun _ _ => trivial
  have absent : ∀ token ∈ (none : Option Token), token.is "," = true := fun _ none => by cases none
  refine (whole.weaken fun _ _ => trivial).imp ?_
  rintro _ ⟨_, _, rfl, ⟨_, rfl, opens⟩, _, _, rfl, head, _, _, rfl, tail, ⟨_, rfl, closes⟩⟩
  have whole : Phrase names .unary _ _ :=
    .array opens (head.of_unary .expression) tail absent closes
  simpa using whole

/-- Brackets before a type. -/
theorem yields_brackets {tokens : List Token → Prop} (inner : Yields Apart tokens first) :
    Yields Apart (fun list => ∃ opening closing others, list = opening :: closing :: others ∧
      opening.is "[" = true ∧ closing.is "]" = true ∧ tokens others)
      (['['] ++ ([']'] ++ first)) := by
  have close := (yields_symbol (c := ']') (by decide)).append inner fun _ _ => trivial
  have whole := (yields_symbol (c := '[') (by decide)).append close fun _ _ => trivial
  refine whole.imp ?_
  rintro _ ⟨_, _, rfl, ⟨_, rfl, opens⟩, _, _, rfl, ⟨_, rfl, closes⟩, type⟩
  exact ⟨_, _, _, rfl, opens, closes, type⟩

/-- Types are shown as programs write them. -/
theorem exists_type (named : shape.isNamed = true) :
    ∃ text, shape.name = Utf8.encode text ∧ Yields Apart (TypeName · shape) text := by
  have word {letters : List Char} {first : Char} {rest : List Char} {shape : Shape}
      (same : letters = first :: rest) (letter : Lexeme.isLetter first = true)
      (all : (rest.all fun c => Lexeme.isLetter c || c.isDigit) = true)
      (other : Token.keywords.contains (Utf8.encode (first :: rest)) = false)
      (known : Shape.ofName? (Utf8.encode letters) = some shape) :
      Yields Apart (TypeName · shape) letters := by
    subst same
    refine (Yields.word letter (List.all_eq_true.mp all) other).imp ?_
    rintro _ ⟨p, rfl⟩
    exact .name rfl known
  induction shape with
  | int => exact ⟨['i', 'n', 't'], rfl, word rfl rfl rfl rfl rfl⟩
  | char => exact ⟨['c', 'h', 'a', 'r'], rfl, word rfl rfl rfl rfl rfl⟩
  | string =>
    exact ⟨['s', 't', 'r', 'i', 'n', 'g'], rfl, word rfl rfl rfl rfl rfl⟩
  | array element ih =>
    obtain ⟨text, same, yields⟩ := ih named
    refine ⟨['['] ++ ([']'] ++ text), ?_, (yields_brackets yields).imp ?_⟩
    · rw [Shape.name, same, ← List.append_assoc, Utf8.encode_append]
      rfl
    · rintro _ ⟨opening, closing, others, rfl, opens, closes, type⟩
      exact .array opens closes type
  | other => cases named

end

/-! Literals. -/

/-- Numbers are shown as digits. -/
theorem exists_int (names : List Bytes) {value : Int32} (writable : 0 ≤ value.toInt) :
    ∃ text, (Expr.int value).render = Utf8.encode text ∧
      Yields Apart (Phrase names .unary · (.int value)) text := by
  obtain ⟨digits, same, some, all, denotes⟩ := Lexeme.exists_digits value.toInt.natAbs
  obtain ⟨first, rest, rfl⟩ := List.exists_cons_of_ne_nil some
  have bound := value.toInt_lt
  have small : Lexeme.decimalValue (first :: rest) < 0x80000000 := by
    rw [denotes]
    omega
  refine ⟨first :: rest, ?_, (Yields.number (all first (List.mem_cons_self ..))
    (fun c member => all c (List.mem_cons_of_mem _ member)) small).imp ?_⟩
  · rw [Expr.render, Numeral.decimal, if_neg (by omega), same]
  · rintro _ ⟨_, p, rfl⟩
    have read : Int32.ofNat value.toInt.natAbs = value := by
      rw [← Int32.toInt_inj, Int32.toInt_ofNat_of_lt (by omega)]
      omega
    rw [denotes, read]
    exact Phrase.int rfl

theorem exists_char (names : List Bytes) {value : Int32} (writable : (Expr.char value).IsWritable)
    (shown : (Expr.char value).isPrintable = true) :
    ∃ text, (Expr.char value).render = Utf8.encode text ∧
      Yields Apart (Phrase names .unary · (.char value)) text := by
  obtain ⟨_, c, known, rfl⟩ := writable
  rw [Expr.isPrintable, known.charOfCode] at shown
  obtain ⟨raw, same, written⟩ := Lexeme.exists_character known shown
  refine ⟨_, ?_, ((Yields.character written).weaken fun _ _ => trivial).imp ?_⟩
  · rw [Expr.render, known.charOfCode, same]
  · rintro _ ⟨p, rfl⟩
    exact Phrase.char rfl

theorem exists_string (names : List Bytes) {value : Bytes}
    (writable : (Expr.string value).IsWritable) (shown : (Expr.string value).isPrintable = true) :
    ∃ text, (Expr.string value).render = Utf8.encode text ∧
      Yields Apart (Phrase names .unary · (.string value)) text := by
  obtain ⟨contents, rfl⟩ := writable
  rw [Expr.isPrintable, Utf8.decode_encode] at shown
  obtain ⟨raw, same, written⟩ := Lexeme.exists_contents (List.all_eq_true.mp shown)
  refine ⟨_, same, ((Yields.string written).weaken fun _ _ => trivial).imp ?_⟩
  rintro _ ⟨p, rfl⟩
  exact Phrase.string rfl

theorem exists_variable {names : List Bytes} {name : Bytes} (word : IsWord name)
    (known : name ∈ names) :
    ∃ text, (Expr.variable name).render = Utf8.encode text ∧
      Yields Apart (Selected names · (.variable name)) text := by
  obtain ⟨first, rest, rfl, letter, all, other⟩ := word
  refine ⟨_, rfl, (Yields.word letter all other).imp ?_⟩
  rintro _ ⟨p, rfl⟩
  exact Selected.name rfl known

/-! All expressions. -/

section

variable {names : List Bytes}

mutual

/-- The text of an expression yields tokens from which it is derived; the tokens of a name or a
selection may be indexed. -/
theorem exists_text {e : Expr} (writable : e.IsWritable) (shown : e.isPrintable = true)
    (known : ∀ name ∈ e.names, name ∈ names) :
    ∃ text, e.render = Utf8.encode text ∧ Yields Apart (Phrase names .unary · e) text ∧
      (e.isPath = true → Yields Apart (Selected names · e) text) := by
  match e with
  | .int value =>
    obtain ⟨text, same, yields⟩ := exists_int names writable
    exact ⟨text, same, yields, fun path => by cases path⟩
  | .char value =>
    obtain ⟨text, same, yields⟩ := exists_char names writable shown
    exact ⟨text, same, yields, fun path => by cases path⟩
  | .string value =>
    obtain ⟨text, same, yields⟩ := exists_string names writable shown
    exact ⟨text, same, yields, fun path => by cases path⟩
  | .variable name =>
    obtain ⟨text, same, yields⟩ := exists_variable writable (known name (List.mem_singleton_self _))
    exact ⟨text, same, yields.imp fun _ => .selected, fun _ => yields⟩
  | .binary operator left right =>
    obtain ⟨one, two⟩ := Bool.and_eq_true_iff.mp shown
    obtain ⟨first, before, left, _⟩ := exists_text writable.1 one fun name member =>
      known name (List.mem_append_left _ member)
    obtain ⟨second, after, right, _⟩ := exists_text writable.2 two fun name member =>
      known name (List.mem_append_right _ member)
    obtain ⟨symbol, sign, listed, level, found⟩ := exists_symbol operator
    refine ⟨_, ?_, yields_binary listed found left right, fun path => by cases path⟩
    simp only [Expr.render, before, after, sign, Utf8.encode_append, encode_space,
      List.append_assoc]
    rfl
  | .negate operand =>
    obtain ⟨first, same, inner, _⟩ := exists_text (e := operand) writable shown known
    refine ⟨_, ?_, yields_negate inner, fun path => by cases path⟩
    simp only [Expr.render, same, Utf8.encode_append, encode_space, List.append_assoc]
    rfl
  | .index left selector =>
    obtain ⟨path, one, two⟩ := writable
    obtain ⟨here, there⟩ := Bool.and_eq_true_iff.mp shown
    obtain ⟨first, before, _, left⟩ := exists_text one here fun name member =>
      known name (List.mem_append_left _ member)
    obtain ⟨second, after, right, _⟩ := exists_text two there fun name member =>
      known name (List.mem_append_right _ member)
    have yields := yields_index (left path) right
    refine ⟨_, ?_, yields.imp fun _ => .selected, fun _ => yields⟩
    simp only [Expr.render, before, after, Utf8.encode_append, List.append_assoc]
    rfl
  | .array first rest =>
    obtain ⟨here, there⟩ := Bool.and_eq_true_iff.mp shown
    obtain ⟨_, one, head, _⟩ := exists_text writable.1 here fun name member =>
      known name (List.mem_append_left _ member)
    obtain ⟨_, two, apart, tail⟩ := exists_rest writable.2 there fun name member =>
      known name (List.mem_append_right _ member)
    refine ⟨_, ?_, yields_array head tail apart, fun path => by cases path⟩
    simp only [Expr.render, one, two, Utf8.encode_append, List.append_assoc]
    rfl
  | .emptyArray element =>
    obtain ⟨text, same, type⟩ := exists_type writable
    refine ⟨_, ?_, (yields_brackets type.space).imp ?_, fun path => by cases path⟩
    · simp only [Expr.render, same, Utf8.encode_append, encode_space]
      rfl
    · rintro _ ⟨opening, closing, others, rfl, opens, closes, type⟩
      exact .emptyArray opens closes type

/-- Elements after the first start with a comma, which ends the element before. -/
theorem exists_rest {rest : List Expr} (writable : Expr.AllWritable rest)
    (shown : Expr.allPrintable rest = true) (known : ∀ name ∈ Expr.allNames rest, name ∈ names) :
    ∃ text, Expr.renderRest rest = Utf8.encode text ∧
      (∀ more, Apart more → Apart (text ++ more)) ∧ Yields Apart (More names · rest) text := by
  match rest with
  | [] =>
    refine ⟨[], rfl, fun _ apart => apart, fun before rest others _ partition => ⟨[], .none, ?_⟩⟩
    rwa [List.append_nil] at partition
  | first :: others =>
    obtain ⟨here, there⟩ := Bool.and_eq_true_iff.mp shown
    obtain ⟨_, one, head, _⟩ := exists_text writable.1 here fun name member =>
      known name (List.mem_append_left _ member)
    obtain ⟨_, two, apart, tail⟩ := exists_rest writable.2 there fun name member =>
      known name (List.mem_append_right _ member)
    refine ⟨_, ?_, fun _ _ => apart_cons _ (by decide), yields_more head tail apart⟩
    simp only [Expr.renderRest, one, two, Utf8.encode_append, encode_space, List.append_assoc]
    rfl

end

end

/-! Trees of programs. -/

/-- All tokens before the end of a text stand for lexemes. -/
theorem isSpelled_of_partition {before text : List Char} {tokens : List Token}
    (partition : Lexeme.Partition before text tokens) :
    ∀ token ∈ tokens, token.kind ≠ .eof → IsSpelled token := by
  induction partition with
  | done _ =>
    rintro token member other
    obtain rfl := List.mem_singleton.mp member
    exact absurd rfl other
  | token _ spells range _ _ _ ih =>
    rintro token member other
    rcases List.mem_cons.mp member with rfl | later
    · exact ⟨_, spells, range⟩
    · exact ih token later other

/-- Every expression of a program is writable. -/
theorem isWritable_of_parse {source : Source} {tree : List Stmt} (parsed : parse source = .ok tree)
    {e : Expr} (occurs : e ∈ Stmt.allParts tree) : e.IsWritable := by
  have scans := fault_of_parse parsed
  obtain ⟨tokens, last, whole, eof, others⟩ := TokenStream.ofSource_ends scans
  obtain ⟨names, derived⟩ := (parse_iff_program scans whole eof others tree).mp parsed
  have stream : TokenStream.ofSource source = ⟨(TokenStream.ofSource source).tokens, none⟩ := by
    rw [← scans]
  have partition : Lexeme.Partition [] source.chars (TokenStream.ofSource source).tokens :=
    (TokenStream.scanFrom_eq_iff (r := .ofSource source) (Nat.lt_succ_self _) rfl _).mp stream
  refine derived.writable (fun token member => ?_) e occurs
  refine isSpelled_of_partition partition token ?_ (others token member)
  rw [whole]
  exact List.mem_append_left _ member

/-- The tokens of a shown expression. -/
theorem tokens_of_render {e : Expr} (writable : e.IsWritable) (shown : e.isPrintable = true)
    {names : List Bytes} (known : ∀ name ∈ e.names, name ∈ names) (file : Bytes) :
    ∃ tokens last, Phrase names .unary tokens e ∧ last.kind = .eof ∧
      TokenStream.ofSource ⟨file, e.render⟩ = ⟨tokens ++ [last], none⟩ := by
  obtain ⟨text, same, yields, _⟩ := exists_text writable shown known
  obtain ⟨tokens, derived, partition⟩ := yields [] [] [⟨.eof, [], 0, Lexeme.place (text ++ [])⟩]
    (fun _ none => by cases none) (.done .nil)
  rw [List.append_nil] at partition
  have chars : (Source.mk file e.render).chars = text := by
    rw [Source.chars, same, Utf8.decode_encode]
  rw [← chars] at partition
  exact ⟨tokens, _, derived, rfl,
    (TokenStream.scanFrom_eq_iff (r := .ofSource ⟨file, e.render⟩) (Nat.lt_succ_self _) rfl _).mpr
      partition⟩

/-- Every expression of a program is read back from how it is shown: with its names declared, the
parser of expressions reads the whole text and gives the expression. -/
theorem expression_of_render {source : Source} {tree : List Stmt} (parsed : parse source = .ok tree)
    {e : Expr} (occurs : e ∈ Stmt.allParts tree) (shown : e.isPrintable = true) (file : Bytes)
    {names : List Bytes} (known : ∀ name ∈ e.names, name ∈ names) :
    ∃ cursor last, Cursor.ofSource ⟨file, e.render⟩ = .ok cursor ∧
      Parser.expression.run ⟨cursor, names⟩ = .ok (e, ⟨last, names⟩) ∧
      last.current.kind = .eof ∧ last.rest = [] ∧ last.fault = none := by
  obtain ⟨tokens, last, derived, eof, stream⟩ :=
    tokens_of_render (isWritable_of_parse parsed occurs) shown known file
  have ends : Parser.Ends [last] := ⟨[], last, rfl, eof⟩
  have stopped : Parser.Stopped .expression [last] := by
    rintro token ⟨⟩
    simp [Parser.stops, Operator.Level.operator?, Token.is, eof]
  have read :=
    Parser.expression_complete ⟨file, e.render⟩ (derived.of_unary .expression) ends stopped
  have start : Cursor.ofSource ⟨file, e.render⟩ =
      .ok (.before ⟨file, e.render⟩ (tokens ++ [last])) := by
    have whole : Parser.Ends (tokens ++ [last]) := ends.append
    obtain ⟨token, rest, same⟩ := whole.exists_cons
    simp only [Cursor.ofSource, stream, same]
    rfl
  exact ⟨_, _, start, read, eof, rfl, rfl⟩

private def quoting : Source :=
  ⟨"quoting", "words = [\"\\t-\", \"\\\"\"]\nprint [words[1 + -0], \"\\n\", \"\"]"⟩

theorem expression_of_render_quoting :
    ∃ tree e, parse quoting = .ok tree ∧ e ∈ Stmt.allParts tree ∧
      e.render = Bytes.ofString "[words[(1 + (- 0))], \"\\n\", \"\"]" ∧
      ∃ cursor last, Cursor.ofSource ⟨"shown", e.render⟩ = .ok cursor ∧
        Parser.expression.run ⟨cursor, [Bytes.ofString "words"]⟩ =
          .ok (e, ⟨last, [Bytes.ofString "words"]⟩) ∧
        last.current.kind = .eof ∧ last.rest = [] ∧ last.fault = none := by
  have found : (((parse quoting).toOption.map Stmt.allParts).getD []).any (fun e =>
      e.render == Bytes.ofString "[words[(1 + (- 0))], \"\\n\", \"\"]" && e.isPrintable &&
        e.names.all [Bytes.ofString "words"].contains) = true := by decide +kernel
  cases parsed : parse quoting with
  | error _ =>
    rw [parsed] at found
    cases found
  | ok tree =>
    rw [parsed] at found
    obtain ⟨e, occurs, fine⟩ := List.any_eq_true.mp found
    obtain ⟨shown, names⟩ := Bool.and_eq_true_iff.mp fine
    obtain ⟨text, printable⟩ := Bool.and_eq_true_iff.mp shown
    have known (name : Bytes) (read : name ∈ e.names) : name ∈ [Bytes.ofString "words"] :=
      List.contains_iff_mem.mp (List.all_eq_true.mp names name read)
    exact ⟨tree, e, rfl, occurs, eq_of_beq text,
      expression_of_render parsed occurs printable "shown" known⟩

end Syntax

end Onepass
