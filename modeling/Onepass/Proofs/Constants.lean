import Onepass.Proofs.Closed
import Onepass.Proofs.Machine.Steps
import Onepass.Proofs.Totality.Parser

/-! The constants of a program in memory. The pool of strings holds the distinct string literals of
the source. In the data of a program the print formats and the pooled strings stand one after the
other, and loading puts them into memory as they are. -/
namespace Onepass

open Assembly (Code Image Layout dataBase)
open Codegen (Builder formatChar formatInt formatString wrap)
open Machine (Word heapLimit memorySize)
open Syntax (Expr Stmt parse)

/-- The value of a string literal. -/
def Token.literal? (token : Token) : Option Bytes :=
  if token.kind = .string then some token.text else none

/-- The values of the string literals among tokens, in order. -/
def Token.literals (tokens : List Token) : List Bytes := tokens.filterMap Token.literal?

namespace Syntax.Grammar

section

variable {token : Token} {tokens : List Token}

theorem literals_cons_of_is {symbol : Bytes} (found : token.is symbol = true) :
    Token.literals (token :: tokens) = Token.literals tokens := by
  have other : token.kind ≠ .string := by
    intro string
    simp [Token.is, string] at found
  simp [Token.literals, Token.literal?, other]

theorem literals_cons_of_ne (other : token.kind ≠ .string) :
    Token.literals (token :: tokens) = Token.literals tokens := by
  simp [Token.literals, Token.literal?, other]

theorem literals_cons_of_operator {level : Operator.Level} {operator : Operator}
    (found : level.operator? token = some operator) :
    Token.literals (token :: tokens) = Token.literals tokens := by
  apply literals_cons_of_ne
  intro string
  simp [Operator.Level.operator?, string] at found

@[simp] theorem literals_nil : Token.literals [] = [] := rfl

@[simp] theorem literals_append (first second : List Token) :
    Token.literals (first ++ second) = Token.literals first ++ Token.literals second :=
  List.filterMap_append

end

theorem TypeName.literals {tokens : List Token} {shape : Shape} (type : TypeName tokens shape) :
    Token.literals tokens = [] := by
  induction type with
  | name ident _ =>
    rw [literals_cons_of_ne (by simp [ident])]
    rfl
  | array opens closes _ ih => rw [literals_cons_of_is opens, literals_cons_of_is closes, ih]

mutual

theorem Phrase.literals {names : List Bytes} {category : Category} {tokens : List Token} {e : Expr}
    (phrase : Phrase names category tokens e) : e.literals = Token.literals tokens := by
  match phrase with
  | .operand alone => exact alone.literals
  | .binary before found after =>
    rw [literals_append, literals_cons_of_operator found, Expr.literals, before.literals,
      after.literals]
  | .negate sign inner => rw [literals_cons_of_is sign, Expr.literals, inner.literals]
  | .plain inner => exact inner.literals
  | .int kind | .char kind => simp [Expr.literals, Token.literals, Token.literal?, kind]
  | .string kind => simp [Expr.literals, Token.literals, Token.literal?, kind]
  | .selected inner => exact inner.literals
  | .parentheses opens inner closes =>
    simp [literals_cons_of_is opens, literals_cons_of_is closes, inner.literals]
  | .emptyArray opens closes type =>
    simp [literals_cons_of_is opens, literals_cons_of_is closes, type.literals, Expr.literals]
  | @Phrase.array _ _ _ comma _ _ _ _ opens head tail trails closes =>
    have trailing : Token.literals comma.toList = [] := by
      cases comma with
      | none => rfl
      | some token => simp [literals_cons_of_is (trails token rfl)]
    simp [literals_cons_of_is opens, literals_cons_of_is closes, trailing, Expr.literals,
      head.literals, tail.literals]

theorem Selected.literals {names : List Bytes} {tokens : List Token} {e : Expr}
    (selected : Selected names tokens e) : e.literals = Token.literals tokens := by
  match selected with
  | .name ident _ => simp [literals_cons_of_ne, ident, Expr.literals]
  | .index before opens inner closes =>
    simp [literals_cons_of_is opens, literals_cons_of_is closes, Expr.literals, before.literals,
      inner.literals]

theorem More.literals {names : List Bytes} {tokens : List Token} {rest : List Expr}
    (more : More names tokens rest) : Expr.allLiterals rest = Token.literals tokens := by
  match more with
  | .none => rfl
  | .one separates head tail =>
    simp [literals_cons_of_is separates, Expr.allLiterals, head.literals, tail.literals]

end

mutual

theorem Statement.literals {names later : List Bytes} {tokens : List Token} {s : Stmt}
    (derived : Statement names tokens s later) : s.literals = Token.literals tokens := by
  match derived with
  | .declare ident _ assigns computed | .assign ident _ assigns computed =>
    simp [literals_cons_of_ne, ident, literals_cons_of_is assigns, Stmt.literals, computed.literals]
  | .store selected assigns computed =>
    have target := selected.literals
    rw [Expr.literals] at target
    simp [literals_cons_of_is assigns, Stmt.literals, computed.literals, ← target]
  | .print prints computed => simp [literals_cons_of_is prints, Stmt.literals, computed.literals]
  | .ifThen word computed inner | .loop word computed inner =>
    simp [literals_cons_of_is word, Stmt.literals, computed.literals, inner.literals]
  | .ifElse tests computed inner _ separates alternative =>
    simp [literals_cons_of_is tests, literals_cons_of_is separates, Stmt.literals,
      computed.literals, inner.literals, alternative.literals]
  | .block opens inner closes =>
    simp [literals_cons_of_is opens, literals_cons_of_is closes, Stmt.literals, inner.literals]

/-- The literals of statements are those of their tokens, in the same order. -/
theorem Statements.literals {names later : List Bytes} {tokens : List Token} {body : List Stmt}
    (derived : Statements names tokens body later) :
    Stmt.allLiterals body = Token.literals tokens := by
  match derived with
  | .nil => rfl
  | .cons head tail => simp [Stmt.allLiterals, head.literals, tail.literals]

end

end Syntax.Grammar

/-- The literals of a tree are those of its source. -/
theorem Syntax.literals_of_parse {source : Source} {tree : List Stmt}
    (parsed : parse source = .ok tree) :
    Stmt.allLiterals tree = Token.literals (TokenStream.ofSource source).tokens := by
  have scans := fault_of_parse parsed
  obtain ⟨tokens, last, whole, eof, others⟩ := TokenStream.ofSource_ends scans
  obtain ⟨names, derived⟩ := (parse_iff_program scans whole eof others tree).mp parsed
  rw [whole, derived.literals, Grammar.literals_append, Grammar.literals_cons_of_ne (by simp [eof])]
  simp

namespace Assembly

/-- A piece of the data that has a name. -/
structure Area where
  name : Bytes
  bytes : Bytes
  /-- Whether it starts at a multiple of the word size. -/
  aligned : Bool

namespace Area

/-- Areas in their places in the data, one after the other from an offset on. -/
def Laid (l : Layout) (data : Bytes) : (offset : Nat) → List Area → Prop
  | _, [] => True
  | offset, area :: rest =>
    ∃ start, offset ≤ start ∧ (area.aligned = true → start % wordSize = 0) ∧
      l.symbol? area.name = some (dataBase + start.toUInt32) ∧ area.bytes <+: data.drop start ∧
      Laid l data (start + area.bytes.length) rest

variable {l : Layout} {data : Bytes} {offset : Nat} {areas : List Area} {x y : Area}

theorem Laid.place (laid : Laid l data offset areas) (member : x ∈ areas) :
    ∃ start, offset ≤ start ∧ (x.aligned = true → start % wordSize = 0) ∧
      l.symbol? x.name = some (dataBase + start.toUInt32) ∧ x.bytes <+: data.drop start := by
  induction areas generalizing offset with
  | nil => cases member
  | cons area rest ih =>
    obtain ⟨start, after, aligned, placed, stands, later⟩ := laid
    rcases List.mem_cons.mp member with rfl | inside
    · exact ⟨start, after, aligned, placed, stands⟩
    · obtain ⟨other, beyond, aligned, placed, stands⟩ := ih later inside
      exact ⟨other, by omega, aligned, placed, stands⟩

/-- Areas of different names do not overlap. -/
theorem Laid.apart (laid : Laid l data offset areas) (one : x ∈ areas) (two : y ∈ areas)
    (names : x.name ≠ y.name) :
    ∃ i j, l.symbol? x.name = some (dataBase + i.toUInt32) ∧ x.bytes <+: data.drop i ∧
      l.symbol? y.name = some (dataBase + j.toUInt32) ∧ y.bytes <+: data.drop j ∧
      (i + x.bytes.length ≤ j ∨ j + y.bytes.length ≤ i) := by
  induction areas generalizing offset with
  | nil => cases one
  | cons area rest ih =>
    obtain ⟨start, _, _, placed, stands, later⟩ := laid
    rcases List.mem_cons.mp one with rfl | inside
    · rcases List.mem_cons.mp two with rfl | other
      · exact absurd rfl names
      · obtain ⟨j, beyond, _, there, contents⟩ := later.place other
        exact ⟨start, j, placed, stands, there, contents, .inl beyond⟩
    · rcases List.mem_cons.mp two with rfl | other
      · obtain ⟨i, beyond, _, there, contents⟩ := later.place inside
        exact ⟨i, start, there, contents, placed, stands, .inr beyond⟩
      · exact ih later inside other

end Area

/-- Two pieces of data that follow each other are one. -/
theorem prefix_drop_append {first second data : Bytes} {start : Nat}
    (one : first <+: data.drop start) (two : second <+: data.drop (start + first.length)) :
    first ++ second <+: data.drop start := by
  obtain ⟨rest, same⟩ := one
  have behind : data.drop (start + first.length) = rest := by
    rw [← List.drop_drop, ← same, List.drop_left]
  rw [behind] at two
  rw [← same]
  exact (List.prefix_append_right_inj first).mpr two

theorem add_padding_mod (offset : Nat) :
    (offset + (padding (Word.ofInt wordSize) offset.toUInt32).toNat) % wordSize = 0 := by
  have four : (Word.ofInt wordSize).toNat = 4 := rfl
  have low : (offset.toUInt32 % Word.ofInt wordSize).toNat = offset % 4 := by
    rw [UInt32.toNat_mod, four, UInt32.toNat_ofNat']
    omega
  have rest : (Word.ofInt wordSize - offset.toUInt32 % Word.ofInt wordSize).toNat =
      4 - offset % 4 := by
    rw [UInt32.toNat_sub_of_le _ _ (by rw [UInt32.le_iff_toNat_le, low, four]; omega), low, four]
  rw [padding, UInt32.toNat_mod, rest, four, wordSize]
  omega

end Assembly

namespace Generator

/-- The area of a pooled string: its length, its bytes and a zero byte. -/
def stringArea (value : Bytes) (index : Nat) : Assembly.Area :=
  ⟨Builder.stringLabel index, Word.bytes value.length.toUInt32 ++ (value ++ [0]), true⟩

/-- The areas of the print formats and of the pooled strings. -/
def areas (strings : List Bytes) : List Assembly.Area :=
  [⟨formatInt, Bytes.ofString "%d\n" ++ [0], false⟩,
    ⟨formatChar, Bytes.ofString "%c\n" ++ [0], false⟩,
    ⟨formatString, Bytes.ofString "%s\n" ++ [0], false⟩] ++
  strings.zipIdx.map fun entry => stringArea entry.1 entry.2

theorem stringArea_mem {strings : List Bytes} {k : Nat} {value : Bytes}
    (found : strings[k]? = some value) : stringArea value k ∈ areas strings :=
  List.mem_append_right _
    (List.mem_map_of_mem (f := fun entry : Bytes × Nat => stringArea entry.1 entry.2)
      (List.mk_mem_zipIdx_iff_getElem?.mpr found))

theorem length_areas_pos {strings : List Bytes} {x : Assembly.Area} (member : x ∈ areas strings) :
    0 < x.bytes.length := by
  rcases List.mem_append.mp member with format | string
  · simp only [List.mem_cons, List.not_mem_nil, or_false] at format
    rcases format with rfl | rfl | rfl <;> decide
  · obtain ⟨entry, _, rfl⟩ := List.mem_map.mp string
    simp [stringArea]

variable {l : Layout} {data : Bytes} {offset : Nat}

private theorem laid_format {name contents : Bytes} {rest : Code}
    (stored : Assembly.Stored l data offset
      (.label name :: .directive ".asciz" [.text contents] :: rest)) :
    l.symbol? name = some (dataBase + offset.toUInt32) ∧
      contents ++ [0] <+: data.drop offset ∧
      Assembly.Stored l data (offset + (contents ++ [0]).length) rest := by
  obtain ⟨placed, bytes, found, stands, later⟩ := stored
  cases found
  rw [List.flatMap_singleton] at stands later
  exact ⟨placed name (List.mem_singleton_self name), stands, later⟩

private theorem laid_pooled {value : Bytes} {index : Nat} {rest : Code}
    (stored : Assembly.Stored l data offset (pooled value index ++ rest)) :
    ∃ start, offset ≤ start ∧ start % wordSize = 0 ∧
      l.symbol? (Builder.stringLabel index) = some (dataBase + start.toUInt32) ∧
      Word.bytes value.length.toUInt32 ++ (value ++ [0]) <+: data.drop start ∧
      Assembly.Stored l data
        (start + (Word.bytes value.length.toUInt32 ++ (value ++ [0])).length) rest := by
  obtain ⟨zeros, padded, _, placed, header, counted, before, contents, found, behind, later⟩ := stored
  cases padded
  cases counted
  cases found
  have length : Word.ofInt (wrap value.length) = value.length.toUInt32 :=
    (Machine.ofInt_wrap _).trans (Word.ofInt_natCast _)
  simp only [List.flatMap_singleton, List.length_replicate, length] at placed before behind later
  refine ⟨_, Nat.le_add_right _ _, Assembly.add_padding_mod offset,
    placed _ (List.mem_singleton_self _), Assembly.prefix_drop_append before behind, ?_⟩
  rw [List.length_append, ← Nat.add_assoc]
  exact later

private theorem laid_pool {strings : List Bytes} {first : Nat}
    (stored : Assembly.Stored l data offset
      ((strings.zipIdx first).flatMap fun entry => pooled entry.1 entry.2)) :
    Assembly.Area.Laid l data offset
      ((strings.zipIdx first).map fun entry => stringArea entry.1 entry.2) := by
  induction strings generalizing first offset with
  | nil => trivial
  | cons value rest ih =>
    rw [List.zipIdx_cons, List.flatMap_cons] at stored
    obtain ⟨start, after, aligned, placed, stands, later⟩ := laid_pooled stored
    exact ⟨start, after, fun _ => aligned, placed, stands, ih later⟩

/-- The constants of a program are in their places. -/
theorem laid_constants {g : Generator} (stored : Assembly.Stored l data offset g.constants) :
    Assembly.Area.Laid l data offset (areas g.strings) := by
  obtain ⟨first, one, stored⟩ := laid_format stored
  obtain ⟨second, two, stored⟩ := laid_format stored
  obtain ⟨third, three, stored⟩ := laid_format stored
  exact ⟨_, Nat.le_refl _, nofun, first, one, _, Nat.le_refl _, nofun, second, two,
    _, Nat.le_refl _, nofun, third, three, laid_pool stored⟩

theorem image_opening (platform : Platform) (l : Layout) (image : Image) :
    Image.lines l image 1 (opening platform) = .ok image := by
  have whole : Image.lines l image 1 (opening platform) =
      .ok { image with data := image.data ++ (#[] : Array UInt8) } := by
    cases platform <;> rfl
  rw [whole, Array.append_empty]

/-- Where the two passes over a program lead: the constants are in their places in the data, and
the code of `main` is in its place in the text. -/
theorem passes_program {platform : Platform} {tree : List Stmt} {image : Image}
    (assembled : Assembly.assemble (Builder.text ((program platform tree).2.builder platform
      (program platform tree).1)) = .ok image) :
    ∃ l : Layout, image.symbols = l.symbols ∧ image.labels = l.labels ∧
      Assembly.Area.Laid l image.data.toList 0 (areas (program platform tree).2.strings) ∧
      Assembly.Placed l image.text 0
        ((program platform tree).2.main platform (program platform tree).1) := by
  rw [Assembly.assemble, read_text] at assembled
  obtain ⟨l, first, second⟩ := bind_eq_ok.mp assembled
  have added := Image.added_lines second
  have fine := isText_program platform tree
  generalize (program platform tree).2 = g at *
  generalize (program platform tree).1 = code at *
  rw [Layout.ofCode, program_eq, List.append_assoc, List.append_assoc, List.append_assoc] at first
  rw [program_eq, List.append_assoc, List.append_assoc, List.append_assoc] at second
  obtain ⟨_, opened, first⟩ := Layout.lines_append_eq_ok.mp first
  obtain ⟨_, begun, second⟩ := Image.lines_append_eq_ok.mp second
  obtain rfl := Except.ok.inj ((lines_opening platform).symm.trans opened)
  obtain rfl := Except.ok.inj ((image_opening platform l _).symm.trans begun)
  obtain ⟨constants, stored, current, _, count, _⟩ := lines_constants g
  obtain ⟨_, firstData, first⟩ := Layout.lines_append_eq_ok.mp first
  obtain ⟨data, secondData, second⟩ := Image.lines_append_eq_ok.mp second
  obtain rfl := Except.ok.inj (stored.symm.trans firstData)
  obtain ⟨_, turned, first⟩ := Layout.lines_append_eq_ok.mp first
  obtain ⟨between, turning, second⟩ := Image.lines_append_eq_ok.mp second
  obtain rfl := Except.ok.inj ((lines_turn platform constants _).symm.trans turned)
  obtain ⟨last, firstText, first⟩ := Layout.lines_append_eq_ok.mp first
  obtain ⟨final, secondText, second⟩ := Image.lines_append_eq_ok.mp second
  have agree : Assembly.Agree { current := .data }
      { symbols := l.symbols, labels := l.labels : Image } := ⟨rfl, rfl⟩
  have agreed := agree.lines firstData secondData
  have laterLayout := (Layout.grows_lines firstText).trans (Layout.grows_lines first)
  have laterImage := (Image.grows_lines secondText).trans (Image.grows_lines second)
  refine ⟨l, added.2.1, added.1, laid_constants ?_, ?_⟩
  · exact Assembly.stored_of_passes rfl agree g.isData_constants firstData secondData
      ((Layout.grows_lines turned).trans laterLayout)
      ((Image.grows_lines turning).trans laterImage).data
  · have placed := Assembly.placed_of_passes rfl (agreed.lines turned turning) fine firstText
      secondText (Layout.grows_lines first) (Image.grows_lines second).text
    rw [count] at placed
    exact placed

end Generator

/-- Whether the data of an image fits below the stack. -/
def Assembly.Image.Fits (image : Image) : Prop := dataBase.toNat + image.data.size ≤ heapLimit

instance (image : Image) : Decidable image.Fits :=
  inferInstanceAs (Decidable (dataBase.toNat + image.data.size ≤ heapLimit))

namespace Machine

variable {m loaded : Machine} {image : Image} {start i : Nat} {bytes : Bytes} {b : UInt8}

section

variable (fits : image.Fits)

include fits

theorem load_of_fits (m : Machine) :
    ∃ loaded, m.load image = .ok loaded ∧
      loaded.memory = m.memory.writeBytes dataBase image.data.toList := by
  have small : image.data.size.toUInt32.toNat = image.data.size :=
    Word.toNat_natCast (Nat.lt_of_le_of_lt (Nat.le_trans (Nat.le_add_left _ _) fits) (by decide))
  have sum : (dataBase + image.data.size.toUInt32).toNat = dataBase.toNat + image.data.size := by
    rw [Word.toNat_add_of_lt, small]
    rw [small]
    exact Nat.lt_of_le_of_lt fits (by decide)
  have room : ¬ heapLimit < (dataBase + image.data.size.toUInt32).toNat := by
    rw [sum]
    exact Nat.not_lt.mpr fits
  simp only [load, if_neg room]
  exact ⟨_, rfl, rfl⟩

/-- Where a piece of the data comes to stand. -/
theorem toNat_start (stands : bytes <+: image.data.toList.drop start)
    (nonempty : 0 < bytes.length) :
    (dataBase + start.toUInt32).toNat = dataBase.toNat + start ∧
      start + bytes.length ≤ image.data.size := by
  have length := stands.length_le
  have size : image.data.toList.length = image.data.size := Array.length_toList
  rw [List.length_drop, size] at length
  have fits : dataBase.toNat + image.data.size ≤ heapLimit := fits
  have limit : heapLimit = 0xF0000 := rfl
  have small : start.toUInt32.toNat = start := Word.toNat_natCast (by omega)
  exact ⟨by rw [Word.toNat_add_of_lt (by omega), small], by omega⟩

/-- Data is read back as it was loaded. -/
theorem readByte_loaded (memory : loaded.memory = m.memory.writeBytes dataBase image.data.toList)
    (stands : bytes <+: image.data.toList.drop start) (found : bytes[i]? = some b) :
    loaded.memory.read (dataBase + start.toUInt32 + i.toUInt32) = b ∧
      loaded.readByte (dataBase + start.toUInt32 + i.toUInt32) = .ok b := by
  have inside := (List.getElem?_eq_some_iff.mp found).1
  obtain ⟨place, bound⟩ := toNat_start fits stands (Nat.zero_lt_of_lt inside)
  have fits : dataBase.toNat + image.data.size ≤ heapLimit := fits
  have limit : heapLimit = 0xF0000 := rfl
  have top : memorySize = 0x100000 := rfl
  have small : i.toUInt32.toNat = i := Word.toNat_natCast (by omega)
  have there : (dataBase + start.toUInt32 + i.toUInt32).toNat = dataBase.toNat + start + i := by
    rw [Word.toNat_add_of_lt (by omega), place, small]
  have read : loaded.memory.read (dataBase + start.toUInt32 + i.toUInt32) = b := by
    have sum : dataBase + start.toUInt32 + i.toUInt32 = dataBase + (start + i).toUInt32 := by
      simp [UInt32.add_assoc]
    rw [memory, sum]
    apply Memory.read_writeBytes
    · rw [Array.length_toList]
      omega
    · obtain ⟨rest, same⟩ := stands
      rw [← List.getElem?_drop, ← same, List.getElem?_append_left inside, found]
  refine ⟨read, ?_⟩
  rw [readByte_eq (accessible_iff.mpr (by omega)), read]

/-- A pooled string is read back: its length, its bytes and the zero byte after them. -/
theorem read_stringArea (memory : loaded.memory = m.memory.writeBytes dataBase image.data.toList)
    {value : Bytes} {index : Nat}
    (stands : (Generator.stringArea value index).bytes <+: image.data.toList.drop start) :
    (∃ w, loaded.readWord (dataBase + start.toUInt32) = .ok w ∧ w.toNat = value.length) ∧
      (∀ (i : Nat) (b : UInt8), value[i]? = some b →
        loaded.readByte (dataBase + start.toUInt32 + 4 + i.toUInt32) = .ok b) ∧
      loaded.readByte (dataBase + start.toUInt32 + 4 + value.length.toUInt32) = .ok 0 := by
  have contents (i : Nat) (b : UInt8) (found : (value ++ [0])[i]? = some b) :
      loaded.readByte (dataBase + start.toUInt32 + 4 + i.toUInt32) = .ok b := by
    have shifted : dataBase + start.toUInt32 + 4 + i.toUInt32 =
        dataBase + start.toUInt32 + (4 + i).toUInt32 := by simp [UInt32.add_assoc]
    rw [shifted]
    refine (readByte_loaded fits memory stands ?_).2
    rw [Generator.stringArea, List.getElem?_append_right (Nat.le_add_right 4 i)]
    simpa [Word.bytes] using found
  have length : (Generator.stringArea value index).bytes.length = 4 + (value.length + 1) := by
    simp only [Generator.stringArea, Word.bytes, List.length_append, List.length_cons,
      List.length_nil]
  obtain ⟨place, bound⟩ := toNat_start fits stands (by omega)
  have room : dataBase.toNat + image.data.size ≤ heapLimit := fits
  have limit : heapLimit = 0xF0000 := rfl
  have top : memorySize = 0x100000 := rfl
  refine ⟨⟨value.length.toUInt32, ?_, Word.toNat_natCast (by omega)⟩, ?_, ?_⟩
  · rw [readWord_eq (accessible_iff.mpr (by omega)), Memory.readWord_of_bytes]
    intro i b found
    refine (readByte_loaded fits memory stands ?_).1
    rw [Generator.stringArea, List.getElem?_append_left (List.getElem?_eq_some_iff.mp found).1]
    exact found
  · intro i b found
    apply contents
    rw [List.getElem?_append_left (List.getElem?_eq_some_iff.mp found).1]
    exact found
  · apply contents
    simp

end

end Machine

namespace Compiler

/-- The strings of a program reach memory as they are. The pool holds every distinct string literal
of the source once, in the order of first occurrence. When the data fits and is loaded, the label of
each pooled string is at a multiple of four; there stand its length, its bytes and a zero byte. The
areas of the strings and of the print formats do not overlap. -/
theorem compile_stores_strings (source : Source) (platform : Platform) (text : Bytes)
    (image : Image) (m : Machine) (compiled : compile source platform = .ok text)
    (assembled : Assembly.assemble text = .ok image) (fits : image.Fits) :
    ∃ pool loaded, (run source platform).builder.strings = pool ∧
      pool = (Token.literals (TokenStream.ofSource source).tokens).eraseDups ∧ pool.Nodup ∧
      m.load image = .ok loaded ∧
      (∀ k value, pool[k]? = some value →
        ∃ a : Word, image.symbols.lookup (Builder.stringLabel k) = some a ∧ a.toNat % 4 = 0 ∧
          (∃ w, loaded.readWord a = .ok w ∧ w.toNat = value.length) ∧
          (∀ (i : Nat) (b : UInt8), value[i]? = some b →
            loaded.readByte (a + 4 + i.toUInt32) = .ok b) ∧
          loaded.readByte (a + 4 + value.length.toUInt32) = .ok 0) ∧
      ∀ x ∈ Generator.areas pool, ∀ y ∈ Generator.areas pool, x.name ≠ y.name →
        ∃ a b : Word, image.symbols.lookup x.name = some a ∧ image.symbols.lookup y.name = some b ∧
          (a.toNat + x.bytes.length ≤ b.toNat ∨ b.toNat + y.bytes.length ≤ a.toNat) := by
  obtain ⟨tree, parsed, _, outcome, rfl⟩ := accepted_of_compile compiled
  obtain ⟨l, symbols, _, laid, _⟩ := Generator.passes_program assembled
  obtain ⟨loaded, load, memory⟩ := Machine.load_of_fits fits m
  have pool : (Generator.program platform tree).2.strings =
      ([] ++ Stmt.allLiterals tree).eraseDups :=
    Generator.strings_statements_eq tree (g := {}) rfl
  rw [List.nil_append, Syntax.literals_of_parse parsed] at pool
  refine ⟨_, loaded, rfl, ?_, ?_, load, ?_, ?_⟩
  · rw [outcome]
    exact pool
  · rw [outcome]
    change (Generator.program platform tree).2.strings.Nodup
    rw [pool]
    exact nodup_eraseDups _
  · rw [outcome]
    intro k value found
    obtain ⟨start, _, aligned, placed, stands⟩ := laid.place (Generator.stringArea_mem found)
    obtain ⟨place, _⟩ := Machine.toNat_start fits stands (Generator.length_areas_pos
      (Generator.stringArea_mem found))
    refine ⟨_, by rw [symbols]; exact placed, ?_, Machine.read_stringArea fits memory stands⟩
    have multiple : start % 4 = 0 := aligned rfl
    have base : dataBase.toNat = 0x1000 := rfl
    omega
  · rw [outcome]
    intro x one y two names
    obtain ⟨i, j, first, before, second, behind, apart⟩ := laid.apart one two names
    obtain ⟨here, _⟩ := Machine.toNat_start fits before (Generator.length_areas_pos one)
    obtain ⟨there, _⟩ := Machine.toNat_start fits behind (Generator.length_areas_pos two)
    refine ⟨_, _, by rw [symbols]; exact first, by rw [symbols]; exact second, ?_⟩
    omega

/-- A program with a string that is used twice, an empty one, and one with a quote, a backslash, a
control byte and a letter outside of ASCII. -/
private def spelling : Source :=
  ⟨[], "s = \"ab\" print \"\" print \"ab\" print \"q\\\"\\\\\\t\u00e9\""⟩

theorem compile_stores_strings_spelling :
    ∃ text image pool loaded, compile spelling .darwin = .ok text ∧
      Assembly.assemble text = .ok image ∧ image.Fits ∧
      (run spelling .darwin).builder.strings = pool ∧
      pool = (Token.literals (TokenStream.ofSource spelling).tokens).eraseDups ∧
      Machine.load {} image = .ok loaded ∧
      ∃ a : Word, image.symbols.lookup (Builder.stringLabel 2) = some a ∧ a.toNat % 4 = 0 ∧
        loaded.readByte (a + 4 + Nat.toUInt32 1) = .ok 34 := by
  have fine : ((compile spelling .darwin).toOption.bind fun text =>
      (Assembly.assemble text).toOption.map fun image => decide image.Fits) = some true := by
    decide +kernel
  have third : (run spelling .darwin).builder.strings[2]? =
      some (Bytes.ofString "q\"\\\t\u00e9") := by decide +kernel
  cases compiled : compile spelling .darwin with
  | error _ =>
    rw [compiled] at fine
    cases fine
  | ok text =>
    rw [compiled] at fine
    cases assembled : Assembly.assemble text with
    | error _ =>
      simp only [Except.toOption, Option.bind_some, assembled] at fine
      cases fine
    | ok image =>
      simp only [Except.toOption, Option.bind_some, assembled, Option.map_some] at fine
      have fits : image.Fits := of_decide_eq_true (Option.some.inj fine)
      obtain ⟨pool, loaded, rfl, distinct, _, load, strings, _⟩ :=
        compile_stores_strings _ _ text image {} compiled assembled fits
      obtain ⟨a, placed, aligned, _, contents, _⟩ := strings 2 _ third
      exact ⟨text, image, _, loaded, rfl, assembled, fits, rfl, distinct, load, a, placed, aligned,
        contents 1 34 rfl⟩

end Compiler

end Onepass
