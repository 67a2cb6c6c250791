import Onepass.Proofs.Constants
import Onepass.Proofs.Lexical.Partition
import Onepass.Proofs.Utf8

/-! How large the parts of a program are. Every token takes a character of the source, so that the
length of the source bounds the variables, the elements of array literals and the data of a program.
In a source of at most a gigabyte all of them can be counted in machine words. -/
namespace Onepass

open Assembly (Code Image Layout Line)
open Machine (Word)
open Syntax (Context Expr Stmt WellTyped parse)

/-- The most bytes a source may have for the sizes in its program to be machine words. -/
def Source.wordLimit : Nat := 1000000000

/-- Whether a token is no character or a single byte. -/
def Token.IsNarrow (t : Token) : Prop := t.kind = .char → t.value.toUInt32.toNat < 256

/-- The bytes that strings take in the data at most: each has a length, a zero byte after it and up
to three bytes for its alignment. -/
def poolSize : List Bytes → Nat
  | [] => 0
  | value :: rest => value.length + 8 + poolSize rest

theorem poolSize_append (first second : List Bytes) :
    poolSize (first ++ second) = poolSize first + poolSize second := by
  induction first with
  | nil => simp [poolSize]
  | cons value rest ih => simp [poolSize, ih, Nat.add_assoc]

theorem poolSize_le_of_sublist {first second : List Bytes} (sublist : first.Sublist second) :
    poolSize first ≤ poolSize second := by
  induction sublist with
  | slnil => exact le_refl _
  | cons value _ ih => exact le_trans ih (Nat.le_add_left _ _)
  | cons_cons value _ ih => exact Nat.add_le_add_left ih _

/-- Erasing duplicates keeps some of the strings. -/
theorem sublist_eraseDups (strings : List Bytes) : strings.eraseDups.Sublist strings := by
  induction length : strings.length using Nat.strong_induction_on generalizing strings with
  | _ n ih =>
    cases strings with
    | nil => simp
    | cons value rest =>
      rw [List.eraseDups_cons]
      have shorter : (rest.filter fun other => !other == value).length < n := by
        rw [← length]
        exact Nat.lt_succ_of_le (List.length_filter_le _ _)
      exact ((ih _ shorter _ rfl).trans List.filter_sublist).cons_cons _

namespace Utf8

theorem length_segmentsFrom_le (skip : Nat) (bytes : Bytes) :
    (segmentsFrom skip bytes).length ≤ bytes.length := by
  fun_induction segmentsFrom skip bytes with
  | case1 => exact Nat.zero_le _
  | case2 skip b rest ih => exact le_trans ih (Nat.le_succ _)
  | case3 b rest c width found ih => exact Nat.succ_le_succ ih
  | case4 b rest absent ih => exact Nat.succ_le_succ ih

end Utf8

/-- A source has no more characters than bytes. -/
theorem Source.length_chars_le (source : Source) : source.chars.length ≤ source.text.length := by
  rw [chars, Utf8.decode, List.length_map]
  exact Utf8.length_segmentsFrom_le 0 _

namespace Lexeme

theorem Contents.length_le {raw text : List Char} (contents : Contents raw text) :
    text.length ≤ raw.length := by
  induction contents with
  | nil => exact le_refl _
  | plain _ _ _ _ ih => exact Nat.succ_le_succ ih
  | escape _ _ ih => exact Nat.succ_le_succ (le_trans ih (Nat.le_succ _))
  | kept _ _ _ ih => exact Nat.succ_le_succ (Nat.succ_le_succ ih)

theorem Spells.narrow {lexeme : List Char} {token : Token} (spells : Spells lexeme token) :
    token.IsNarrow := by
  cases spells with
  | @char _ c _ contents =>
    intro _
    have small : c.toNat < 0x80 := by
      cases contents with
      | plain _ _ _ narrow => exact narrow
      | escape known => exact escape_narrow known
    have value : (Int32.ofNat c.toNat).toUInt32.toNat = c.toNat := Nat.mod_eq_of_lt (by omega)
    rw [value]
    omega
  | int | ident | keyword | op | string => rintro ⟨⟩

/-- A lexeme is at least a quarter as long as the constant it may stand for. -/
theorem Spells.extent {lexeme : List Char} {token : Token} (spells : Spells lexeme token) :
    0 < lexeme.length ∧ poolSize token.literal?.toList ≤ 4 * lexeme.length := by
  cases spells with
  | string contents =>
    have encoded := Utf8.length_encode_le _ |>.trans (Nat.mul_le_mul_left 4 contents.length_le)
    simp only [Token.literal?, poolSize, if_true, Option.toList_some, List.length_cons,
      List.length_append, List.length_nil]
    omega
  | int nonempty => exact ⟨List.length_pos_of_ne_nil nonempty, Nat.zero_le _⟩
  | ident | keyword | char => exact ⟨Nat.succ_pos _, Nat.zero_le _⟩
  | op known =>
    have nonempty : ∀ symbol ∈ operators, 0 < symbol.length := by decide
    exact ⟨nonempty _ known, Nat.zero_le _⟩

/-- What a text can hold. -/
theorem Partition.extent {before text : List Char} {tokens : List Token}
    (partition : Partition before text tokens) :
    tokens.length ≤ text.length + 1 ∧ poolSize (Token.literals tokens) ≤ 4 * text.length ∧
      ∀ token ∈ tokens, token.IsNarrow := by
  induction partition with
  | done =>
    refine ⟨Nat.succ_le_succ (Nat.zero_le _), Nat.zero_le _, ?_⟩
    simp [Token.IsNarrow]
  | @token _ separator lexeme rest t tokens _ spells _ _ _ _ ih =>
    obtain ⟨count, size, narrow⟩ := ih
    obtain ⟨nonempty, literal⟩ := spells.extent
    have split : Token.literals (t :: tokens) = t.literal?.toList ++ Token.literals tokens := by
      cases found : t.literal? <;> simp [Token.literals, found]
    simp only [List.length_cons, List.length_append, split, poolSize_append]
    exact ⟨by omega, by omega, List.forall_mem_cons.mpr ⟨spells.narrow, narrow⟩⟩

end Lexeme

namespace Syntax

mutual

/-- Whether all character literals of an expression are single bytes and the sizes of all its array
literals are machine words. -/
def Expr.IsNarrow : Expr → Prop
  | .char value => value.toUInt32.toNat < 256
  | .int _ | .string _ | .variable _ | .emptyArray _ => True
  | .binary _ left right | .index left right => left.IsNarrow ∧ right.IsNarrow
  | .negate operand => operand.IsNarrow
  | .array first rest => rest.length + 1 < 0x20000000 ∧ first.IsNarrow ∧ Expr.AllNarrow rest

def Expr.AllNarrow : List Expr → Prop
  | [] => True
  | first :: rest => first.IsNarrow ∧ Expr.AllNarrow rest

end

mutual

/-- Whether the literals of a statement are narrow. -/
def Stmt.IsNarrow : Stmt → Prop
  | .declare _ value | .assign _ value | .print value => value.IsNarrow
  | .store container selector value => container.IsNarrow ∧ selector.IsNarrow ∧ value.IsNarrow
  | .ifThen condition body | .loop condition body => condition.IsNarrow ∧ body.IsNarrow
  | .ifElse condition body other => condition.IsNarrow ∧ body.IsNarrow ∧ other.IsNarrow
  | .block body => Stmt.AllNarrow body

def Stmt.AllNarrow : List Stmt → Prop
  | [] => True
  | first :: rest => first.IsNarrow ∧ Stmt.AllNarrow rest

end

namespace Grammar

/-- Tokens that narrow literals are read from. -/
structure Narrow (tokens : List Token) : Prop where
  each : ∀ token ∈ tokens, token.IsNarrow
  few : tokens.length ≤ 0x40000000

theorem Narrow.of_sublist {first second : List Token} (narrow : Narrow second)
    (sublist : first.Sublist second) : Narrow first :=
  ⟨fun token member => narrow.each token (sublist.subset member),
    le_trans sublist.length_le narrow.few⟩

/-- Elements after the first take two tokens each. -/
theorem More.length_le {names : List Bytes} {tokens : List Token} {rest : List Expr}
    (more : More names tokens rest) : 2 * rest.length ≤ tokens.length := by
  cases more with
  | none => exact le_refl _
  | one _ head tail =>
    obtain ⟨_, _, rfl, _⟩ := head.starts
    have others := tail.length_le
    simp only [List.length_cons, List.length_append]
    omega

mutual

theorem Phrase.narrow {names : List Bytes} {category : Category} {tokens : List Token} {e : Expr}
    (phrase : Phrase names category tokens e) (narrow : Narrow tokens) : e.IsNarrow := by
  match phrase with
  | .operand alone => exact alone.narrow narrow
  | .binary before _ after =>
    exact ⟨before.narrow (narrow.of_sublist (List.sublist_append_left ..)),
      after.narrow (narrow.of_sublist ((List.sublist_cons_self ..).trans
        (List.sublist_append_right ..)))⟩
  | .negate _ inner => exact inner.narrow (narrow.of_sublist (List.sublist_cons_self ..))
  | .plain inner => exact inner.narrow narrow
  | .char kind => exact narrow.each _ (List.mem_singleton_self _) kind
  | .int _ | .string _ | .emptyArray _ _ _ => trivial
  | .selected inner => exact inner.narrow narrow
  | .parentheses _ inner _ =>
    exact inner.narrow (narrow.of_sublist ((List.sublist_append_left ..).trans
      (List.sublist_cons_self ..)))
  | @Phrase.array _ opening closing comma first others _ rest _ head tail _ _ =>
    have count := tail.length_le
    have few := narrow.few
    obtain ⟨_, _, same, _⟩ := head.starts
    have nonempty : 0 < first.length := by simp [same]
    simp only [List.length_cons, List.length_append, List.length_nil] at few
    refine ⟨by omega, head.narrow (narrow.of_sublist ?_), tail.narrow (narrow.of_sublist ?_)⟩
    · exact (List.sublist_append_left ..).trans (List.sublist_cons_self ..)
    · exact ((List.sublist_append_left ..).trans (List.sublist_append_right ..)).trans
        (List.sublist_cons_self ..)

theorem Selected.narrow {names : List Bytes} {tokens : List Token} {e : Expr}
    (selected : Selected names tokens e) (narrow : Narrow tokens) : e.IsNarrow := by
  match selected with
  | .name _ _ => trivial
  | .index before _ inner _ =>
    exact ⟨before.narrow (narrow.of_sublist (List.sublist_append_left ..)),
      inner.narrow (narrow.of_sublist (((List.sublist_append_left ..).trans
        (List.sublist_cons_self ..)).trans (List.sublist_append_right ..)))⟩

theorem More.narrow {names : List Bytes} {tokens : List Token} {rest : List Expr}
    (more : More names tokens rest) (narrow : Narrow tokens) : Expr.AllNarrow rest := by
  match more with
  | .none => trivial
  | .one _ head tail =>
    exact ⟨head.narrow (narrow.of_sublist ((List.sublist_append_left ..).trans
        (List.sublist_cons_self ..))),
      tail.narrow (narrow.of_sublist ((List.sublist_append_right ..).trans
        (List.sublist_cons_self ..)))⟩

end

mutual

/-- Every variable of a statement takes a token, and its literals are as narrow as its tokens. -/
theorem Statement.extent {names later : List Bytes} {tokens : List Token} {s : Stmt}
    (derived : Statement names tokens s later) :
    s.assignments.length ≤ tokens.length ∧ (Narrow tokens → s.IsNarrow) := by
  match derived with
  | .declare _ _ _ computed | .assign _ _ _ computed =>
    exact ⟨Nat.succ_le_succ (Nat.zero_le _), fun narrow => computed.narrow (narrow.of_sublist
      ((List.sublist_cons_self ..).trans (List.sublist_cons_self ..)))⟩
  | .store selected _ computed =>
    refine ⟨Nat.zero_le _, fun narrow => ?_⟩
    obtain ⟨container, selector⟩ := selected.narrow
      (narrow.of_sublist (List.sublist_append_left ..))
    exact ⟨container, selector, computed.narrow (narrow.of_sublist
      ((List.sublist_cons_self ..).trans (List.sublist_append_right ..)))⟩
  | .print _ computed =>
    exact ⟨Nat.zero_le _, fun narrow =>
      computed.narrow (narrow.of_sublist (List.sublist_cons_self ..))⟩
  | .ifThen _ computed inner | .loop _ computed inner =>
    obtain ⟨count, body⟩ := inner.extent
    refine ⟨?_, fun narrow => ⟨computed.narrow (narrow.of_sublist ?_), body (narrow.of_sublist ?_)⟩⟩
    · simp only [Stmt.assignments, List.length_cons, List.length_append]
      omega
    · exact (List.sublist_append_left ..).trans (List.sublist_cons_self ..)
    · exact (List.sublist_append_right ..).trans (List.sublist_cons_self ..)
  | .ifElse _ computed inner _ _ alternative =>
    obtain ⟨one, body⟩ := inner.extent
    obtain ⟨two, other⟩ := alternative.extent
    refine ⟨?_, fun narrow => ⟨computed.narrow (narrow.of_sublist ?_), body (narrow.of_sublist ?_),
      other (narrow.of_sublist ?_)⟩⟩
    · simp only [Stmt.assignments, List.length_cons, List.length_append]
      omega
    · exact (List.sublist_append_left ..).trans (List.sublist_cons_self ..)
    · exact ((List.sublist_append_left ..).trans (List.sublist_append_right ..)).trans
        (List.sublist_cons_self ..)
    · exact (((List.sublist_cons_self ..).trans (List.sublist_append_right ..)).trans
        (List.sublist_append_right ..)).trans (List.sublist_cons_self ..)
  | .block _ inner _ =>
    obtain ⟨count, body⟩ := inner.extent
    refine ⟨?_, fun narrow => body (narrow.of_sublist ?_)⟩
    · simp only [Stmt.assignments, List.length_cons, List.length_append]
      omega
    · exact (List.sublist_append_left ..).trans (List.sublist_cons_self ..)

theorem Statements.extent {names later : List Bytes} {tokens : List Token} {body : List Stmt}
    (derived : Statements names tokens body later) :
    (Stmt.allAssignments body).length ≤ tokens.length ∧ (Narrow tokens → Stmt.AllNarrow body) := by
  match derived with
  | .nil => exact ⟨le_refl _, fun _ => trivial⟩
  | .cons head tail =>
    obtain ⟨one, first⟩ := head.extent
    obtain ⟨two, rest⟩ := tail.extent
    refine ⟨?_, fun narrow => ⟨first (narrow.of_sublist (List.sublist_append_left ..)),
      rest (narrow.of_sublist (List.sublist_append_right ..))⟩⟩
    simp only [Stmt.allAssignments, List.length_append]
    omega

end

end Grammar

/-- What the length of a source says about its program. -/
theorem extent_of_parse {source : Source} {tree : List Stmt} (parsed : parse source = .ok tree) :
    (Stmt.allAssignments tree).length ≤ source.text.length ∧
      poolSize (Stmt.allLiterals tree) ≤ 4 * source.text.length ∧
      (source.text.length ≤ Source.wordLimit → Stmt.AllNarrow tree) := by
  have scans := fault_of_parse parsed
  obtain ⟨tokens, last, whole, eof, others⟩ := TokenStream.ofSource_ends scans
  obtain ⟨names, derived⟩ := (parse_iff_program scans whole eof others tree).mp parsed
  have stream : TokenStream.ofSource source = ⟨(TokenStream.ofSource source).tokens, none⟩ := by
    rw [← scans]
  have partition : Lexeme.Partition [] source.chars (TokenStream.ofSource source).tokens :=
    (TokenStream.scanFrom_eq_iff (r := .ofSource source) (Nat.lt_succ_self _) rfl _).mp stream
  obtain ⟨count, size, narrow⟩ := partition.extent
  have chars := source.length_chars_le
  rw [whole, List.length_append, List.length_singleton] at count
  obtain ⟨assigned, body⟩ := derived.extent
  refine ⟨by omega, ?_, fun limit => body ⟨fun token member => narrow token ?_, ?_⟩⟩
  · rw [literals_of_parse parsed]
    omega
  · rw [whole]
    exact List.mem_append_left _ member
  · simp only [Source.wordLimit] at limit
    omega

/-- A program has no more variables than its source has bytes. -/
theorem length_locals_le {source : Source} {tree : List Stmt} {locals : Context}
    (parsed : parse source = .ok tree) (typed : WellTyped tree locals) :
    locals.length ≤ source.text.length := by
  have names := typed.names
  have counted : locals.length = (Stmt.allAssignments tree).eraseDups.length := by
    rw [← List.length_map (f := Prod.fst), names]
    simp [Stmt.assignments]
  rw [counted]
  exact le_trans (sublist_eraseDups _).length_le (extent_of_parse parsed).1

end Syntax

namespace Assembly

/-- Instructions and labels add nothing to the data. -/
theorem Image.data_of_text {l : Layout} {image after : Image} {number : Nat} {code : Code}
    (fine : code.all Line.isText = true) (success : lines l image number code = .ok after) :
    after.data = image.data := by
  induction code generalizing image number with
  | nil =>
    cases success
    rfl
  | cons line rest ih =>
    obtain ⟨plain, others⟩ := Bool.and_eq_true_iff.mp fine
    obtain ⟨middle, added, later⟩ := lines_cons_eq_ok.mp success
    rw [ih others later]
    obtain ⟨labels, _ | ⟨_ | i⟩⟩ := line
    · cases added
      rfl
    · cases plain
    · obtain ⟨instr, _, made⟩ := bind_eq_ok.mp added
      cases made
      rfl

/-- The bytes of a directive are added to the data. -/
theorem Image.size_directive {l : Layout} {image after : Image} {number : Nat} {name : Bytes}
    {arguments : List Argument} {rest : Code} (data : (Directive.mk name []).kind ≠ .globl)
    (success : lines l image number (.directive name arguments :: rest) = .ok after) :
    ∃ bytes middle, l.directiveData ⟨name, arguments⟩ image.data.size.toUInt32 = .ok bytes ∧
      middle.data.size = image.data.size + bytes.length ∧
      lines l middle (number + 1) rest = .ok after := by
  obtain ⟨middle, added, later⟩ := lines_cons_eq_ok.mp success
  have opened : (if (Directive.mk name arguments).kind = .globl then
      .ok { image with globals := image.globals ++ arguments.map fun a => a.symbol?.getD [] }
    else do
      let bytes ← l.directiveData ⟨name, arguments⟩ image.data.size.toUInt32
      return { image with data := image.data ++ bytes.toArray }) = Except.ok middle := added
  have kind : (Directive.mk name arguments).kind = (Directive.mk name []).kind := rfl
  rw [kind, if_neg data] at opened
  obtain ⟨bytes, found, made⟩ := bind_eq_ok.mp opened
  cases made
  exact ⟨bytes, _, found, by simp, later⟩

end Assembly

namespace Generator

variable {l : Layout} {image after : Image} {number : Nat}

private theorem padding_lt (offset : Word) :
    (Assembly.padding (Word.ofInt wordSize) offset).toNat < 4 := by
  rw [Assembly.padding, UInt32.toNat_mod]
  have four : (Word.ofInt wordSize).toNat = 4 := rfl
  rw [four]
  exact Nat.mod_lt _ (by decide)

private theorem size_format {name contents : Bytes} {rest : Code}
    (success : Image.lines l image number
      (.label name :: .directive ".asciz" [.text contents] :: rest) = .ok after) :
    ∃ middle : Image, middle.data.size = image.data.size + (contents.length + 1) ∧
      Image.lines l middle (number + 2) rest = .ok after := by
  obtain ⟨same, labelled, success⟩ := Image.lines_cons_eq_ok.mp success
  cases labelled
  obtain ⟨bytes, middle, found, size, later⟩ := Image.size_directive (by decide) success
  cases found
  exact ⟨middle, by simpa using size, later⟩

private theorem size_pool {strings : List Bytes} {first : Nat}
    (success : Image.lines l image number
      ((strings.zipIdx first).flatMap fun entry => pooled entry.1 entry.2) = .ok after) :
    after.data.size ≤ image.data.size + poolSize strings := by
  induction strings generalizing first image number with
  | nil =>
    cases success
    exact le_refl _
  | cons value rest ih =>
    rw [List.zipIdx_cons, List.flatMap_cons] at success
    obtain ⟨zeros, aligned, padded, one, success⟩ := Image.size_directive (by decide) success
    obtain ⟨same, labelled, success⟩ := Image.lines_cons_eq_ok.mp success
    cases labelled
    obtain ⟨header, counted, word, two, success⟩ := Image.size_directive (by decide) success
    obtain ⟨contents, stored, found, three, success⟩ := Image.size_directive (by decide) success
    cases padded
    cases word
    cases found
    have padding := padding_lt image.data.size.toUInt32
    have others := ih success
    have two : counted.data.size = aligned.data.size + 4 := two
    rw [List.length_replicate] at one
    simp only [List.flatMap_singleton, List.length_append, List.length_singleton] at three
    rw [poolSize]
    omega

private theorem size_constants {g : Generator}
    (success : Image.lines l image number g.constants = .ok after) :
    after.data.size ≤ image.data.size + (12 + poolSize g.strings) := by
  obtain ⟨first, one, success⟩ := size_format success
  obtain ⟨second, two, success⟩ := size_format success
  obtain ⟨third, three, success⟩ := size_format success
  have pool := size_pool success
  have formats : (Bytes.ofString "%d\n").length = 3 ∧ (Bytes.ofString "%c\n").length = 3 ∧
      (Bytes.ofString "%s\n").length = 3 := by decide
  omega

/-- The data of a program holds little more than its strings. -/
theorem size_data {platform : Platform} {tree : List Stmt} {image : Image}
    (assembled : Assembly.assemble (Codegen.Builder.text ((program platform tree).2.builder platform
      (program platform tree).1)) = .ok image) :
    image.data.size ≤ 12 + poolSize (program platform tree).2.strings := by
  rw [Assembly.assemble, read_text] at assembled
  obtain ⟨l, _, second⟩ := bind_eq_ok.mp assembled
  have fine := isText_program platform tree
  generalize (program platform tree).2 = g at *
  generalize (program platform tree).1 = code at *
  rw [program_eq, List.append_assoc, List.append_assoc, List.append_assoc] at second
  obtain ⟨opened, begun, second⟩ := Image.lines_append_eq_ok.mp second
  obtain ⟨data, stored, second⟩ := Image.lines_append_eq_ok.mp second
  obtain ⟨between, turned, second⟩ := Image.lines_append_eq_ok.mp second
  have text : (g.main platform code ++ [Line.blank]).all Line.isText = true := by
    rw [List.all_append, fine]
    rfl
  have opening : opened.data.size = 0 := by
    obtain rfl := Except.ok.inj ((image_opening platform l _).symm.trans begun)
    rfl
  have turn : between.data.size = data.data.size := by
    have passed (number : Nat) : Image.lines l data number (turn platform) = .ok { data with
        data := data.data ++ (#[] : Array UInt8)
        globals := data.globals ++ [platform.symbol "main"] } := by cases platform <;> rfl
    obtain rfl := Except.ok.inj ((passed _).symm.trans turned)
    simp
  rw [Image.data_of_text text second, turn]
  have constants := size_constants stored
  omega

end Generator

/-- When the program of a source of limited length is loaded, its data fits below the stack. -/
theorem Machine.fits_of_load {source : Source} {platform : Platform} {tree : List Stmt}
    {image : Image} {m loaded : Machine} (parsed : parse source = .ok tree)
    (assembled : Assembly.assemble (Codegen.Builder.text
      ((Generator.program platform tree).2.builder platform (Generator.program platform tree).1)) =
        .ok image)
    (limit : source.text.length ≤ Source.wordLimit) (load : m.load image = .ok loaded) :
    image.Fits := by
  have size := Generator.size_data assembled
  have strings : (Generator.program platform tree).2.strings =
      ([] ++ Stmt.allLiterals tree).eraseDups :=
    Generator.strings_statements_eq tree (g := {}) rfl
  have pool := poolSize_le_of_sublist (sublist_eraseDups (Stmt.allLiterals tree))
  have literals := (Syntax.extent_of_parse parsed).2.1
  rw [strings, List.nil_append] at size
  simp only [Source.wordLimit] at limit
  have base : Assembly.dataBase.toNat = 0x1000 := rfl
  have small : image.data.size.toUInt32.toNat = image.data.size := Word.toNat_natCast (by omega)
  unfold Machine.load at load
  dsimp only at load
  split at load
  · cases load
  · rename_i room
    rw [Word.toNat_add_of_lt (by omega), small] at room
    exact Nat.not_lt.mp room

end Onepass
