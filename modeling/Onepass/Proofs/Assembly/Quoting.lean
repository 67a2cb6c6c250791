import Onepass.Proofs.Assembly.Reading

/-! Quoted strings as a rule on characters. A string literal is a text of the form
`"(\\.|[^"\\\n])*"`. The reader takes what the rule matches, no text is matched by the rule at two
lengths, and a byte string is read back from its quoted form whatever follows it. -/
namespace Onepass.Assembly.Literal

/-- The texts of the form `(\\.|[^"\\\n])*`, which may stand between quotes. -/
inductive Body : List Char → Prop
  | nil : Body []
  | escaped {c : Char} {rest : List Char} (newline : c ≠ '\n') (later : Body rest) :
      Body ('\\' :: c :: rest)
  | plain {c : Char} {rest : List Char} (quote : c ≠ '"') (backslash : c ≠ '\\')
      (newline : c ≠ '\n') (later : Body rest) : Body (c :: rest)

/-- Whether the rule matches all of a text. -/
def IsString (text : List Char) : Prop := ∃ body, Body body ∧ text = '"' :: body ++ ['"']

namespace Body

variable {c : Char} {rest : List Char}

theorem escaped_iff : Body ('\\' :: c :: rest) ↔ c ≠ '\n' ∧ Body rest := by
  constructor
  · intro body
    cases body with
    | escaped newline later => exact ⟨newline, later⟩
    | plain _ backslash => exact absurd rfl backslash
  · exact fun ⟨newline, later⟩ => .escaped newline later

theorem plain_iff (backslash : c ≠ '\\') :
    Body (c :: rest) ↔ c ≠ '"' ∧ c ≠ '\n' ∧ Body rest := by
  constructor
  · intro body
    cases body with
    | escaped => exact absurd rfl backslash
    | plain quote _ newline later => exact ⟨quote, newline, later⟩
  · exact fun ⟨quote, newline, later⟩ => .plain quote backslash newline later

theorem not_backslash : ¬ Body ['\\'] := by
  intro body
  cases body with
  | plain _ backslash => exact backslash rfl

/-- The closing quote is the first one that ends a body. -/
theorem eq_of_append_quote {first second after others : List Char} (one : Body first)
    (two : Body second) (same : first ++ '"' :: after = second ++ '"' :: others) :
    first = second := by
  induction one generalizing second with
  | nil =>
    cases two with
    | nil => rfl
    | escaped => cases same
    | plain quote => exact absurd (List.cons.inj same).1.symm quote
  | @escaped c rest newline later ih =>
    cases two with
    | nil => cases same
    | escaped _ later' =>
      obtain ⟨rfl, tails⟩ := List.cons.inj (List.cons.inj same).2
      rw [ih later' tails]
    | plain _ backslash => exact absurd (List.cons.inj same).1.symm backslash
  | @plain c rest quote backslash newline later ih =>
    cases two with
    | nil => exact absurd (List.cons.inj same).1 quote
    | escaped => exact absurd (List.cons.inj same).1 backslash
    | plain _ _ _ later' =>
      obtain ⟨rfl, tails⟩ := List.cons.inj same
      rw [ih later' tails]

end Body

/-- No string literal is the beginning of another one. -/
theorem IsString.eq_of_start {first second : List Char} (one : IsString first)
    (two : IsString second) (before : first <+: second) : first = second := by
  obtain ⟨body, inside, rfl⟩ := one
  obtain ⟨longer, inside', rfl⟩ := two
  obtain ⟨after, same⟩ := before
  rw [List.cons_append, List.cons_append, List.cons_append, List.append_assoc] at same
  rw [inside.eq_of_append_quote inside' (List.cons.inj same).2]

/-! The reader goes by bytes and the rule by characters. -/

/-- ASCII characters are equal if their bytes are. -/
private theorem ofNat_eq_iff {b x : UInt8} (ascii : b < 0x80) (small : x < 0x80) :
    Char.ofNat b.toNat = Char.ofNat x.toNat ↔ b = x := by
  have value : ∀ n < 0x80, (Char.ofNat n).toNat = n := by decide +kernel
  constructor
  · intro same
    have codes := congrArg Char.toNat same
    rw [value b.toNat ascii, value x.toNat small] at codes
    exact UInt8.toNat_inj.mp codes
  · rintro rfl
    rfl

/-- Whether the reader takes all of some bytes that a quote follows. -/
def Closes (contents after : Bytes) : Prop := contents? (contents ++ 34 :: after) = some contents

namespace Closes

variable {contents after : Bytes} {b : UInt8}

theorem escaped_iff : Closes (92 :: b :: contents) after ↔ b ≠ 10 ∧ Closes contents after := by
  unfold Closes
  rw [List.cons_append, List.cons_append, contents?]
  by_cases newline : b = 10
  · simp [newline]
  · rw [if_neg newline]
    simp [newline]

theorem plain_iff (quote : b ≠ 34) (backslash : b ≠ 92) (newline : b ≠ 10) :
    Closes (b :: contents) after ↔ Closes contents after := by
  unfold Closes
  rw [List.cons_append, contents?_plain _ quote backslash newline]
  simp

theorem not_quote : ¬ Closes (34 :: contents) after := by
  unfold Closes
  rw [List.cons_append, contents?]
  simp

theorem not_newline : ¬ Closes (10 :: contents) after := by
  unfold Closes
  rw [List.cons_append, contents?]
  · simp
  · simp
  · simp

theorem not_backslash : ¬ Closes [92] after := by
  unfold Closes
  rw [List.cons_append, List.nil_append, contents?, if_neg (by decide)]
  simp

/-- Bytes outside of ASCII are no part of what the rule looks at. -/
theorem high_iff {high : Bytes} (outside : ∀ b ∈ high, 0x80 ≤ b) :
    Closes (high ++ contents) after ↔ Closes contents after := by
  induction high with
  | nil => rfl
  | cons b rest ih =>
    have above := outside b List.mem_cons_self
    have other {x : UInt8} (ascii : x < 0x80) : b ≠ x := by
      rintro rfl
      exact absurd ascii (UInt8.not_lt.mpr above)
    rw [List.cons_append, plain_iff (other (by decide)) (other (by decide)) (other (by decide))]
    exact ih fun x member => outside x (List.mem_cons_of_mem _ member)

theorem nil : Closes [] after := rfl

section

variable {c : Char} {bytes : Bytes} (whole : Utf8.IsWhole (c, bytes))

include whole

/-- A character other than a backslash stands for itself. -/
theorem char_iff (backslash : c ≠ '\\') :
    Closes (bytes ++ contents) after ↔ c ≠ '"' ∧ c ≠ '\n' ∧ Closes contents after := by
  rcases whole with ⟨b, ascii, rfl, rfl⟩ | ⟨high, _, outside⟩
  · have quote := ofNat_eq_iff ascii (x := 34) (by decide)
    have newline := ofNat_eq_iff ascii (x := 10) (by decide)
    have other := mt (ofNat_eq_iff ascii (x := 92) (by decide)).mpr backslash
    rw [List.singleton_append]
    by_cases closing : b = 34
    · subst closing
      exact iff_of_false not_quote fun ⟨different, _⟩ => different rfl
    by_cases ending : b = 10
    · subst ending
      exact iff_of_false not_newline fun ⟨_, different, _⟩ => different rfl
    rw [plain_iff closing other ending]
    exact ⟨fun closes => ⟨mt quote.mp closing, mt newline.mp ending, closes⟩, fun all => all.2.2⟩
  · have other {x : Char} (ascii : x.toNat < 0x80) : c ≠ x := by
      rintro rfl
      exact absurd ascii (Nat.not_lt.mpr high)
    rw [high_iff outside]
    exact ⟨fun closes => ⟨other (by decide), other (by decide), closes⟩, fun all => all.2.2⟩

/-- Any character but a newline may follow a backslash. -/
theorem escape_iff :
    Closes (92 :: (bytes ++ contents)) after ↔ c ≠ '\n' ∧ Closes contents after := by
  rcases whole with ⟨b, ascii, rfl, rfl⟩ | ⟨high, some, outside⟩
  · have newline := ofNat_eq_iff ascii (x := 10) (by decide)
    rw [List.singleton_append, escaped_iff]
    exact and_congr_left' (not_congr newline.symm)
  · have other : c ≠ '\n' := by
      rintro rfl
      exact absurd high (by decide)
    obtain ⟨b, rest, rfl⟩ := List.exists_cons_of_ne_nil some
    have above := outside b List.mem_cons_self
    have first : b ≠ 10 := by
      rintro rfl
      exact absurd above (by decide)
    rw [List.cons_append, escaped_iff,
      high_iff fun x member => outside x (List.mem_cons_of_mem _ member)]
    exact ⟨fun both => ⟨other, both.2⟩, fun both => ⟨first, both.2⟩⟩

end

/-- The bytes that the reader takes are those of characters that the rule allows. -/
theorem iff_body (after : Bytes) (segments : List (Char × Bytes))
    (whole : ∀ segment ∈ segments, Utf8.IsWhole segment) :
    Closes (segments.flatMap (·.2)) after ↔ Body (segments.map (·.1)) := by
  have backslash {bytes : Bytes} (whole : Utf8.IsWhole ('\\', bytes)) : bytes = [92] := by
    rcases whole with ⟨b, ascii, rfl, same⟩ | ⟨high, _⟩
    · rw [(ofNat_eq_iff ascii (x := 92) (by decide)).mp same.symm]
    · exact absurd high (by decide)
  -- A backslash takes the next character with it, so the induction goes by two steps.
  induction segments using List.twoStepInduction with
  | nil => exact iff_of_true nil .nil
  | singleton segment =>
    obtain ⟨c, bytes⟩ := segment
    have here := whole _ List.mem_cons_self
    by_cases escape : c = '\\'
    · subst escape
      rw [backslash here]
      exact iff_of_false not_backslash Body.not_backslash
    · rw [List.flatMap_cons, List.map_cons, char_iff here escape, Body.plain_iff escape]
      exact and_congr_right' (and_congr_right' (iff_of_true nil .nil))
  | cons_cons segment next rest later following =>
    obtain ⟨c, bytes⟩ := segment
    obtain ⟨d, others⟩ := next
    have here := whole _ List.mem_cons_self
    by_cases escape : c = '\\'
    · subst escape
      have there := whole _ (List.mem_cons_of_mem _ List.mem_cons_self)
      rw [List.flatMap_cons, backslash here, List.flatMap_cons, List.singleton_append,
        escape_iff there, List.map_cons, List.map_cons, Body.escaped_iff]
      exact and_congr_right' (later fun segment member =>
        whole segment (List.mem_cons_of_mem _ (List.mem_cons_of_mem _ member)))
    · rw [List.flatMap_cons, List.map_cons, char_iff here escape, Body.plain_iff escape]
      exact and_congr_right' (and_congr_right' (following _ fun segment member =>
        whole segment (List.mem_cons_of_mem _ member)))

end Closes

/-- The reader takes what it finds before a quote. -/
theorem prefix_of_contents? {text contents : Bytes} (found : contents? text = some contents) :
    contents ++ [34] <+: text := by
  fun_induction contents? text generalizing contents with
  | case1 => cases found
  | case2 rest =>
    obtain rfl := Option.some.inj found
    exact ⟨rest, rfl⟩
  | case3 => cases found
  | case4 c rest newline ih =>
    obtain ⟨later, taken, rfl⟩ := Option.map_eq_some_iff.mp found
    exact List.cons_prefix_cons.mpr ⟨rfl, List.cons_prefix_cons.mpr ⟨rfl, ih taken⟩⟩
  | case5 => cases found
  | case6 b rest quote escape plain ih =>
    obtain ⟨later, taken, rfl⟩ := Option.map_eq_some_iff.mp found
    exact List.cons_prefix_cons.mpr ⟨rfl, ih taken⟩

/-- What the reader takes after an opening quote is what the rule matches there. -/
theorem contents?_eq_some_iff {text contents : Bytes} :
    contents? text = some contents ↔
      contents ++ [34] <+: text ∧ Body (Utf8.decode contents) := by
  have closes (after : Bytes) : Closes contents after ↔ Body (Utf8.decode contents) := by
    have segments := Closes.iff_body after (Utf8.segments contents)
      fun segment member => Utf8.isWhole_of_mem_segmentsFrom member
    rwa [Utf8.flatMap_segments] at segments
  constructor
  · intro found
    have taken := prefix_of_contents? found
    refine ⟨taken, ?_⟩
    obtain ⟨after, rfl⟩ := taken
    rw [List.append_assoc] at found
    exact (closes after).mp found
  · rintro ⟨⟨after, rfl⟩, body⟩
    rw [List.append_assoc]
    exact (closes after).mpr body

/-- A quoted string ends with a quote, so what follows is read as if it stood alone. -/
theorem decode_quote_append (bytes after : Bytes) :
    Utf8.decode (quote bytes ++ after) = Utf8.decode (quote bytes) ++ Utf8.decode after := by
  have cut (after : Bytes) := Utf8.decode_append_ascii (by decide : (34 : UInt8) < 0x80)
    (34 :: bytes.flatMap escapeByte) after
  have whole : quote bytes ++ after = (34 :: bytes.flatMap escapeByte) ++ 34 :: after := by
    simp [quote]
  rw [whole, cut, quote, cut, List.append_assoc]
  rfl

/-- The rule matches a quoted string. -/
theorem isString_quote (bytes : Bytes) : IsString (Utf8.decode (quote bytes)) := by
  have inside := (contents?_eq_some_iff.mp (contents?_quote bytes [])).2
  have opening := Utf8.decode_append_ascii (by decide : (34 : UInt8) < 0x80) []
    (bytes.flatMap escapeByte ++ [34])
  have closing := Utf8.decode_append_ascii (by decide : (34 : UInt8) < 0x80)
    (bytes.flatMap escapeByte) []
  refine ⟨_, inside, ?_⟩
  rw [closing] at opening
  exact opening

theorem isPrintable_quote {bytes : Bytes} {b : UInt8} (member : b ∈ quote bytes) :
    IsPrintable b := by
  have mark : IsPrintable 34 := by decide
  rw [quote, List.mem_append, List.mem_cons, List.mem_flatMap, List.mem_singleton] at member
  rcases member with (rfl | ⟨_, _, escaped⟩) | rfl
  · exact mark
  · exact escapeByte_printable escaped
  · exact mark

/-- Strings are read back from their quoted form, whatever follows. The rule matches the quoted form
and neither less nor more of the text; all of its bytes are printable ASCII; the reader makes it one
atom and goes on with what follows; and that atom denotes the string. -/
theorem quote_read_back (bytes after : Bytes) :
    (∀ matched, matched <+: Utf8.decode (quote bytes ++ after) ∧ IsString matched ↔
      matched = Utf8.decode (quote bytes)) ∧
    (∀ b ∈ quote bytes, 0x20 ≤ b ∧ b ≤ 0x7E) ∧
    ∃ contents, quote bytes = 34 :: contents ++ [34] ∧
      (∀ offset, atomsFrom 0 offset (quote bytes ++ after) =
        (atomsFrom 0 (offset + (quote bytes).length) after).map (.text contents :: ·)) ∧
      unquote? contents = some bytes := by
  have start : Utf8.decode (quote bytes) <+: Utf8.decode (quote bytes ++ after) :=
    ⟨_, (decode_quote_append bytes after).symm⟩
  refine ⟨fun matched => ⟨fun ⟨before, string⟩ => ?_, ?_⟩, fun b => isPrintable_quote,
    bytes.flatMap escapeByte, rfl, fun offset => ?_, unquote?_quote bytes⟩
  · rcases List.prefix_or_prefix_of_prefix before start with shorter | longer
    · exact string.eq_of_start (isString_quote bytes) shorter
    · exact ((isString_quote bytes).eq_of_start string longer).symm
  · rintro rfl
    exact ⟨start, isString_quote bytes⟩
  · exact atomsFrom_piece _ (atomAt?_quote bytes after) offset

/-- A quote, a backslash, a byte that is no character and a zero before a digit, followed by another
quote: the first quote inside ends nothing, and the one that follows starts nothing. -/
theorem quote_read_back_mixed :
    ¬ IsString ['"', '\\', '"'] ∧
    (92 ∈ quote [34, 92, 0xC3, 0, 55] ∧ (0x20 : UInt8) ≤ 92 ∧ (92 : UInt8) ≤ 0x7E) ∧
    ∃ contents, quote [34, 92, 0xC3, 0, 55] = 34 :: contents ++ [34] ∧
      atomsFrom 0 0 (quote [34, 92, 0xC3, 0, 55] ++ [34]) = .error 15 ∧
      unquote? contents = some [34, 92, 0xC3, 0, 55] := by
  obtain ⟨rule, printable, contents, whole, read, denoted⟩ :=
    quote_read_back [34, 92, 0xC3, 0, 55] [34]
  refine ⟨fun string => ?_, ⟨by decide, printable 92 (by decide)⟩, contents, whole, ?_, denoted⟩
  · have longer := (rule ['"', '\\', '"']).mp ⟨by decide +kernel, string⟩
    exact absurd longer (by decide +kernel)
  · have length : (quote [34, 92, 0xC3, 0, 55]).length = 15 := by decide +kernel
    rw [read, length]
    rfl

end Onepass.Assembly.Literal
