import Onepass.Proofs.Lexical.Partition
import Onepass.Proofs.Utf8

/-! Places in a source. Lines are split in the bytes of a text and counted in its characters; both
agree, whatever the bytes are. A reader stands at the place that its characters before it count to,
also after a fault, so what a diagnostic shows is the line that its lexeme starts on. -/
namespace Onepass

namespace Bytes

theorem not_mem_of_mem_splitOn {mark : UInt8} {text part : Bytes} (member : part ∈ splitOn mark text) :
    mark ∉ part := by
  induction text generalizing part with
  | nil =>
    obtain rfl := List.mem_singleton.mp member
    exact List.not_mem_nil
  | cons b rest ih =>
    rw [splitOn] at member
    split at member
    · rcases List.mem_cons.mp member with rfl | later
      · exact List.not_mem_nil
      · exact ih later
    · rename_i other
      split at member
      · obtain rfl := List.mem_singleton.mp member
        simpa using Ne.symm other
      · rename_i first parts split
        rw [split] at ih
        rcases List.mem_cons.mp member with rfl | later
        · have absent := ih List.mem_cons_self
          simpa [Ne.symm other] using absent
        · exact ih (List.mem_cons_of_mem _ later)

theorem join_eq_intercalate (separator : Bytes) (parts : List Bytes) :
    join separator parts = separator.intercalate parts := by
  induction parts with
  | nil => rfl
  | cons part rest ih =>
    cases rest with
    | nil => simp [join]
    | cons next rest => rw [join, ih, List.intercalate_cons_cons]

/-- What is dropped at the end of a text. -/
theorem dropTrailing_append (mark : UInt8) (text : Bytes) :
    ∃ count, text = dropTrailing mark text ++ List.replicate count mark := by
  refine ⟨(text.reverse.takeWhile (· = mark)).length, ?_⟩
  have same : text.reverse.takeWhile (· = mark) =
      List.replicate (text.reverse.takeWhile (· = mark)).length mark := by
    refine List.eq_replicate_iff.mpr ⟨rfl, fun b member => ?_⟩
    simpa using List.mem_takeWhile_imp member
  rw [dropTrailing, ← List.reverse_replicate, ← same, ← List.reverse_append,
    List.takeWhile_append_dropWhile, List.reverse_reverse]

theorem getLast?_dropTrailing (mark : UInt8) (text : Bytes) :
    (dropTrailing mark text).getLast? ≠ some mark := by
  rw [dropTrailing, List.getLast?_reverse]
  intro last
  have kept := List.head?_dropWhile_not (· = mark) text.reverse
  rw [last] at kept
  simp at kept

end Bytes

/-- Parts without the separator are counted by it. -/
theorem count_intercalate {α : Type} [BEq α] [LawfulBEq α] {x : α} {parts : List (List α)}
    (some : parts ≠ []) (inside : ∀ part ∈ parts, x ∉ part) :
    1 + ([x].intercalate parts).count x = parts.length := by
  induction parts with
  | nil => exact absurd rfl some
  | cons part rest ih =>
    have absent : part.count x = 0 := List.count_eq_zero.mpr (inside part List.mem_cons_self)
    cases rest with
    | nil => simp [absent]
    | cons next rest =>
      have later := ih (List.cons_ne_nil _ _) fun other member =>
        inside other (List.mem_cons_of_mem _ member)
      rw [List.intercalate_cons_cons, List.count_append, List.count_append, absent,
        List.count_singleton_self, List.length_cons]
      omega

namespace Source

variable (source : Source)

private theorem lines_ne_nil : source.lines ≠ [] := Bytes.splitOn_ne_nil 10 source.text

private theorem intercalate_lines : [10].intercalate source.lines = source.text := by
  rw [← Bytes.join_eq_intercalate, lines, Bytes.join_splitOn]

private theorem newline_not_mem : ∀ line ∈ source.lines.map Utf8.decode, '\n' ∉ line := by
  intro line member newline
  obtain ⟨raw, part, rfl⟩ := List.mem_map.mp member
  exact Bytes.not_mem_of_mem_splitOn part (Utf8.mem_of_mem_decode (by decide) newline)

private theorem intercalate_chars :
    ['\n'].intercalate (source.lines.map Utf8.decode) = source.chars := by
  have decoded (parts : List Bytes) :
      ['\n'].intercalate (parts.map Utf8.decode) = Utf8.decode ([10].intercalate parts) := by
    induction parts with
    | nil => rfl
    | cons part rest ih =>
      cases rest with
      | nil => simp
      | cons next rest =>
        rw [List.map_cons, List.map_cons, List.intercalate_cons_cons, ← List.map_cons, ih,
          List.intercalate_cons_cons, List.append_assoc, List.append_assoc, List.singleton_append,
          List.singleton_append, Utf8.decode_append_ascii (by decide)]
        rfl
  rw [decoded, intercalate_lines, chars]

/-- The lines of a source are its bytes between newlines. -/
theorem lines_eq : source.lines = List.splitOn 10 source.text := by
  have cut := List.splitOn_intercalate (10 : UInt8)
    (fun part (member : part ∈ source.lines) => Bytes.not_mem_of_mem_splitOn member)
    source.lines_ne_nil
  rw [← cut, intercalate_lines]

/-- The lines of the characters are the characters of the lines. -/
theorem splitOn_chars : source.chars.splitOn '\n' = source.lines.map Utf8.decode := by
  have some : source.lines.map Utf8.decode ≠ [] := by simpa using source.lines_ne_nil
  rw [← intercalate_chars, List.splitOn_intercalate '\n' source.newline_not_mem some]

/-- Counting newlines in the characters counts the lines of the bytes. -/
theorem count_chars : 1 + source.chars.count '\n' = source.lines.length := by
  have some : source.lines.map Utf8.decode ≠ [] := by simpa using source.lines_ne_nil
  rw [← intercalate_chars, count_intercalate some source.newline_not_mem, List.length_map]

end Source

/-! Readers. -/

/-- The readers that scanning a source again and again leads to, also past faults. -/
inductive Reader.Reached (source : Source) : Reader → Prop where
  | start : Reached source (.ofSource source)
  | scan {r : Reader} (before : Reached source r) : Reached source (r.scan source).2

/-- Whether a token, the end of input or a lexeme that cannot be scanned starts at a place. -/
inductive Source.LexemeAt (source : Source) (p : Position) : Prop where
  | token {r : Reader} {token : Token} (reached : r.Reached source)
      (read : (r.scan source).1 = .ok token) (here : token.position = p)
  | fault {r : Reader} {d : Diagnostic} (reached : r.Reached source)
      (read : (r.scan source).1 = .error d) (here : d.position = p)

namespace Reader

variable {source : Source} {r : Reader}

/-- Whether the place of a reader counts the characters before it. -/
def Counts (source : Source) (r : Reader) : Prop :=
  ∃ before, source.chars = before ++ r.rest ∧ r.position = Lexeme.place before

theorem Counts.advance (counts : r.Counts source) (count : Nat) :
    (r.advance count).Counts source := by
  obtain ⟨before, whole, here⟩ := counts
  refine ⟨before ++ r.rest.take count, ?_, ?_⟩
  · rw [whole, Reader.advance, List.append_assoc, List.take_append_drop]
  · rw [Reader.advance, here, ← Lexeme.afterAll_start, ← Lexeme.afterAll_start,
      Lexeme.afterAll_append]

theorem Counts.scan (counts : r.Counts source) : (r.scan source).2.Counts source := by
  have skipped : r.skipBlank.Counts source := counts.advance _
  rw [Reader.scan]
  split
  · exact skipped
  · exact skipped.advance _

theorem Reached.counts (reached : r.Reached source) : r.Counts source := by
  induction reached with
  | start => exact ⟨[], rfl, rfl⟩
  | scan _ ih => exact ih.scan

/-- Whatever is read stands where the reader is after blanks. -/
theorem position_scan (source : Source) (r : Reader) :
    (∀ token, (r.scan source).1 = .ok token → token.position = r.skipBlank.position) ∧
      ∀ d, (r.scan source).1 = .error d →
        ∃ cause, d = .ofSource source r.skipBlank.position cause := by
  rw [Reader.scan]
  split
  · refine ⟨?_, by rintro _ ⟨⟩⟩
    rintro _ ⟨⟩
    rfl
  · dsimp only
    split
    · refine ⟨?_, by rintro _ ⟨⟩⟩
      rintro _ ⟨⟩
      rfl
    · refine ⟨by rintro _ ⟨⟩, ?_⟩
      rintro _ ⟨⟩
      exact ⟨_, rfl⟩

end Reader

/-- The place of a lexeme counts the lines before it, and the characters before it on its line. -/
theorem Source.LexemeAt.counts {source : Source} {p : Position} (lexeme : source.LexemeAt p) :
    ∃ (r : Reader) (before : List Char), r.Reached source ∧
      source.chars = before ++ r.skipBlank.rest ∧ p = Lexeme.place before := by
  have skipped {r : Reader} (reached : r.Reached source) : ∃ before : List Char,
      source.chars = before ++ r.skipBlank.rest ∧ r.skipBlank.position = Lexeme.place before :=
    reached.counts.advance _
  cases lexeme with
  | token reached read here =>
    rw [← here, (Reader.position_scan source _).1 _ read]
    exact ⟨_, (skipped reached).imp fun _ counted => ⟨reached, counted⟩⟩
  | fault reached read here =>
    obtain ⟨cause, same⟩ := (Reader.position_scan source _).2 _ read
    rw [← here, same]
    exact ⟨_, (skipped reached).imp fun _ counted => ⟨reached, counted⟩⟩

/-! Diagnostics. -/

/-- Whether a diagnostic points at a lexeme of a source and shows the line that it starts on, without
the carriage returns at the end of the line. Its place counts the characters before what some reader
has left to read, after blanks. -/
structure Diagnostic.PointsInto (d : Diagnostic) (source : Source) : Prop where
  file : d.file = source.name
  lexeme : source.LexemeAt d.position
  place : ∃ (r : Reader) (before : List Char), r.Reached source ∧
    source.chars = before ++ r.skipBlank.rest ∧ d.position = Lexeme.place before
  first : 1 ≤ d.position.line
  last : d.position.line ≤ source.lines.length
  line : ∃ raw returns, source.lines[d.position.line - 1]? = some raw ∧
    raw = d.line ++ List.replicate returns 13 ∧ d.line.getLast? ≠ some 13

/-- A diagnostic at a lexeme points there. -/
theorem Source.LexemeAt.pointsInto {source : Source} {p : Position} (lexeme : source.LexemeAt p)
    (cause : Diagnostic.Cause) : (Diagnostic.ofSource source p cause).PointsInto source := by
  obtain ⟨_, before, _, whole, here⟩ := lexeme.counts
  have first : 1 ≤ p.line := by
    rw [here]
    exact Nat.le_add_right ..
  have last : p.line ≤ source.lines.length := by
    rw [here, ← source.count_chars, whole, List.count_append]
    exact Nat.add_le_add_left (Nat.le_add_right ..) 1
  have bound : p.line - 1 < source.lines.length := by omega
  have shown : source.lineText p.line = Bytes.dropTrailing 13 source.lines[p.line - 1] := by
    rw [Source.lineText, if_neg (by omega), Int.toNat_natCast, List.getD_eq_getElem _ _ bound]
  obtain ⟨returns, split⟩ := Bytes.dropTrailing_append 13 source.lines[p.line - 1]
  refine ⟨rfl, lexeme, lexeme.counts, first, last, _, returns, List.getElem?_eq_getElem bound, ?_, ?_⟩
  · rw [Diagnostic.ofSource, shown]
    exact split
  · rw [Diagnostic.ofSource, shown]
    exact Bytes.getLast?_dropTrailing _ _

/-- What scanning reports at any point. -/
theorem Reader.Reached.pointsInto {source : Source} {r : Reader} (reached : r.Reached source)
    {d : Diagnostic} (failed : (r.scan source).1 = .error d) : d.PointsInto source := by
  have lexeme : source.LexemeAt d.position := .fault reached failed rfl
  obtain ⟨cause, same⟩ := (position_scan source r).2 d failed
  rw [same] at lexeme ⊢
  exact lexeme.pointsInto cause

namespace TokenStream

/-- The tokens and the fault of a stream are read by readers that are reached. -/
theorem reached_scanFrom {source : Source} {r : Reader} (reached : r.Reached source) (fuel : Nat) :
    (∀ token ∈ (scanFrom source fuel r).tokens, source.LexemeAt token.position) ∧
      ∀ d, (scanFrom source fuel r).fault = some d → d.PointsInto source := by
  induction fuel generalizing r with
  | zero => exact ⟨by rintro _ ⟨⟩, by rintro _ ⟨⟩⟩
  | succ fuel ih =>
    have later := reached.scan
    rw [scanFrom]
    rcases read : r.scan source with ⟨fault | token, next⟩
    · refine ⟨by rintro _ ⟨⟩, ?_⟩
      rintro _ ⟨⟩
      exact reached.pointsInto (congrArg Prod.fst read)
    · have here : source.LexemeAt token.position := .token reached (congrArg Prod.fst read) rfl
      rw [read] at later
      obtain ⟨tokens, faults⟩ := ih later
      dsimp only
      split
      · refine ⟨?_, by rintro _ ⟨⟩⟩
        rintro _ member
        obtain rfl := List.mem_singleton.mp member
        exact here
      · refine ⟨?_, faults⟩
        rintro other member
        rcases List.mem_cons.mp member with rfl | inside
        · exact here
        · exact tokens other inside

variable {source : Source}

theorem lexemeAt_of_mem {token : Token} (member : token ∈ (ofSource source).tokens) :
    source.LexemeAt token.position :=
  (reached_scanFrom .start _).1 token member

theorem pointsInto_of_fault {d : Diagnostic} (fault : (ofSource source).fault = some d) :
    d.PointsInto source :=
  (reached_scanFrom .start _).2 d fault

end TokenStream

end Onepass
