import Onepass.Proofs.Closed
import Onepass.Proofs.Lexical.Partition
import Onepass.Proofs.Utf8

/-! From a text to its image. A text that is put together from lexemes is read back as their tokens;
if the tokens derive a well typed tree, then the text is compiled and the result assembles. -/
namespace Onepass

open Syntax (Stmt WellTyped parse)

namespace Lexeme

variable {lexeme rest : List Char} {first : Char} {tail : List Char}

/-- A lexeme is the longest one when reading goes no further. -/
theorem isLongest_of_length (whole : lexeme ++ rest = first :: tail)
    (short : (ofChars first tail).length ≤ lexeme.length) : IsLongest lexeme (lexeme ++ rest) := by
  intro other token spells here
  rw [whole] at here
  exact le_trans (reads_ofChars spells here).covers short

/-- A run of characters of a kind ends where another character stands. -/
theorem takeWhile_append {kind : Char → Bool} (all : ∀ c ∈ lexeme, kind c = true)
    (stops : ∀ c, rest.head? = some c → kind c = false) :
    (lexeme ++ rest).takeWhile kind = lexeme := by
  rw [List.takeWhile_append_of_pos all]
  cases rest with
  | nil => simp
  | cons c rest => simp [stops c rfl]

theorem isLongest_word (letter : isLetter first = true)
    (all : ∀ c ∈ tail, (isLetter c || c.isDigit) = true)
    (stops : ∀ c, rest.head? = some c → (isLetter c || c.isDigit) = false) :
    IsLongest (first :: tail) (first :: tail ++ rest) := by
  have whole : ∀ c ∈ first :: tail, (isLetter c || c.isDigit) = true := by simpa [letter] using all
  refine isLongest_of_length rfl ?_
  rw [ofChars_of_letter letter]
  change ((first :: tail ++ rest).takeWhile _).length ≤ _
  rw [takeWhile_append whole stops]

theorem isLongest_number (digit : first.isDigit = true) (all : ∀ c ∈ tail, c.isDigit = true)
    (stops : ∀ c, rest.head? = some c → c.isDigit = false) :
    IsLongest (first :: tail) (first :: tail ++ rest) := by
  have whole : ∀ c ∈ first :: tail, c.isDigit = true := by simpa [digit] using all
  refine isLongest_of_length rfl ?_
  rw [ofChars_of_digit digit]
  change ((first :: tail ++ rest).takeWhile _).length ≤ _
  rw [takeWhile_append whole stops]

theorem isLongest_string {raw text : List Char} (contents : Contents raw text) :
    IsLongest ('"' :: (raw ++ ['"'])) ('"' :: (raw ++ ['"']) ++ rest) := by
  refine isLongest_of_length rfl ?_
  have body := stringBody_of_contents contents rest
  rw [ofChars_quote]
  simp only [List.append_eq, List.append_assoc, List.singleton_append, string, body]
  simp

end Lexeme

namespace Syntax

/-- A text whose tokens derive a tree is parsed. -/
theorem parse_of_partition {source : Source} {tokens : List Token} {last : Token} {tree : List Stmt}
    (partition : Lexeme.Partition [] source.chars (tokens ++ [last])) (eof : last.kind = .eof)
    (others : ∀ token ∈ tokens, token.kind ≠ .eof) (derived : Grammar.Program tokens tree) :
    parse source = .ok tree := by
  have scanned : TokenStream.ofSource source = ⟨tokens ++ [last], none⟩ :=
    (TokenStream.scanFrom_eq_iff (Nat.lt_succ_self _) rfl _).mpr partition
  have whole : (TokenStream.ofSource source).tokens = tokens ++ [last] := by rw [scanned]
  exact (parse_iff_program (by rw [scanned]) whole eof others tree).mpr derived

end Syntax

namespace Compiler

/-- A source with a well typed tree is compiled, and the result assembles. -/
theorem compile_of_typed {source : Source} {tree : List Stmt} {locals : Syntax.Context}
    (platform : Platform) (parsed : parse source = .ok tree) (typed : WellTyped tree locals) :
    ∃ text image, compile source platform = .ok text ∧ Assembly.assemble text = .ok image ∧
      text = Codegen.Builder.text ((Generator.program platform tree).2.builder platform
        (Generator.program platform tree).1) ∧
      locals = (Generator.program platform tree).2.context := by
  cases verdict source platform with
  | refused d refused _ =>
    rw [parsed] at refused
    cases refused
  | illTyped _ _ _ wrong => exact absurd typed (wrong tree parsed locals)
  | accepted other read others outcome =>
    obtain rfl : tree = other := Except.ok.inj (parsed.symm.trans read)
    have placed : (Generator.program platform tree).1.labels.Perm
        (Generator.localLabels 0 (Generator.program platform tree).2.nextLabel) :=
      Generator.labels_statements tree {}
    obtain ⟨image, assembled, _⟩ := Generator.assemble_text placed
      fun v places known => Generator.isWithin_statements (fun n => places _) tree {} known
    refine ⟨_, image, ?_, assembled, rfl, typed.unique others⟩
    rw [compile, outcome]
    rfl

end Compiler

end Onepass
