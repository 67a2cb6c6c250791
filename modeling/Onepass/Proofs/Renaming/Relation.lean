import Onepass.Proofs.Lockstep.Session
import Onepass.Proofs.Totality.Cursor

/-! Two sources with the same tokens up to the names of their variables, compiled side by side. The
two compilations stand at the same token all the time, have the same variables up to their names,
and have built the same code; a fault is of one class and stands at one token of both. -/
namespace Onepass

open Syntax (Cursor)

/-- Whether a name can stand in a source as an identifier. -/
def Token.Identifies (name : Bytes) : Prop :=
  ∃ source, ∃ token ∈ (TokenStream.ofSource source).tokens, token.kind = .ident ∧ token.text = name

/-- A renaming of identifiers: it tells them apart, and keeps those that denote types. -/
structure Renaming where
  rename : Bytes → Bytes
  injective : ∀ x y, Token.Identifies x → Token.Identifies y → rename x = rename y → x = y
  int : rename "int" = "int"
  char : rename "char" = "char"
  string : rename "string" = "string"

namespace Renaming

variable (names : Renaming)

/-- A token with its identifier renamed. -/
def token (t : Token) : Token :=
  if t.kind = .ident then { t with text := names.rename t.text } else t

/-- Whether two sources scan, and the tokens of the second are those of the first renamed, wherever
they stand. -/
structure Relates (first second : Source) : Prop where
  scans : (TokenStream.ofSource first).fault = none
  scansToo : (TokenStream.ofSource second).fault = none
  tokens : List.Forall₂ (fun t u => (names.token t).sameAs u = true)
    (TokenStream.ofSource first).tokens (TokenStream.ofSource second).tokens

/-- Whether the shape of a type stands under its name in every renamed source. -/
theorem rename_name {shape : Shape} (scalar : shape ∈ [Shape.int, .char, .string]) :
    names.rename shape.name = shape.name ∧ Token.Identifies shape.name := by
  simp only [List.mem_cons, List.not_mem_nil, or_false] at scalar
  rcases scalar with rfl | rfl | rfl
  · exact ⟨names.int, ⟨[], "int"⟩, ⟨.ident, "int", 0, .start⟩, by decide +kernel⟩
  · exact ⟨names.char, ⟨[], "char"⟩, ⟨.ident, "char", 0, .start⟩, by decide +kernel⟩
  · exact ⟨names.string, ⟨[], "string"⟩, ⟨.ident, "string", 0, .start⟩, by decide +kernel⟩

theorem ofName?_rename {name : Bytes} (identifier : Token.Identifies name) :
    Shape.ofName? (names.rename name) = Shape.ofName? name := by
  apply List.find?_congr
  intro shape scalar
  obtain ⟨fixed, known⟩ := names.rename_name scalar
  rw [Bool.eq_iff_iff, beq_iff_eq, beq_iff_eq]
  constructor
  · intro same
    apply names.injective _ _ known identifier
    rw [fixed, same]
  · intro same
    rw [← same, fixed]

/-- The token that corresponds to one of the first source: it has the same index and, up to the
renaming, the same payload. -/
structure Counterpart (first second : Source) (t u : Token) : Prop where
  index : ∃ i : Nat, (TokenStream.ofSource first).tokens[i]? = some t ∧
    (TokenStream.ofSource second).tokens[i]? = some u
  same : (names.token t).sameAs u = true

namespace Counterpart

variable {names} {first second : Source} {t u : Token}
  (counterpart : names.Counterpart first second t u)

include counterpart

theorem kind : u.kind = t.kind := by
  have same := counterpart.same
  simp only [Token.sameAs, Bool.and_eq_true, beq_iff_eq] at same
  rw [← same.1, token]
  split <;> rfl

theorem name (identifier : t.kind = .ident) : u.text = names.rename t.text := by
  have same := counterpart.same
  simp only [Token.sameAs, token, identifier, if_true, Bool.and_eq_true, beq_iff_eq] at same
  exact same.2.symm

theorem identifies (identifier : t.kind = .ident) : Token.Identifies t.text := by
  obtain ⟨i, here, _⟩ := counterpart.index
  exact ⟨first, t, List.mem_of_getElem? here, identifier, rfl⟩

theorem value (literal : t.kind = .int ∨ t.kind = .char) : u.value = t.value := by
  have same := counterpart.same
  rcases literal with kind | kind <;>
    simp only [Token.sameAs, token, kind, reduceCtorEq, if_false, Bool.and_eq_true,
      beq_iff_eq] at same <;>
    exact same.2.symm

theorem text (literal : t.kind = .string ∨ t.kind = .op ∨ t.kind = .keyword) : u.text = t.text := by
  have same := counterpart.same
  rcases literal with kind | kind | kind <;>
    simp only [Token.sameAs, token, kind, reduceCtorEq, if_false, Bool.and_eq_true,
      beq_iff_eq] at same <;>
    exact same.2.symm

theorem is (symbol : Bytes) : u.is symbol = t.is symbol := by
  rw [Token.is, Token.is, counterpart.kind]
  by_cases symbolic : t.kind = .op ∨ t.kind = .keyword
  · rw [counterpart.text (.inr symbolic)]
  · rw [not_or] at symbolic
    rw [beq_false_of_ne symbolic.1, beq_false_of_ne symbolic.2]
    rfl

theorem operator? (level : Operator.Level) : level.operator? u = level.operator? t := by
  rw [Operator.Level.operator?, Operator.Level.operator?, counterpart.kind]
  split
  · rw [counterpart.text (.inr (.inl ‹_›))]
  · rfl

theorem namedShape? : Cursor.namedShape? u = Cursor.namedShape? t := by
  rw [Cursor.namedShape?, Cursor.namedShape?, counterpart.kind]
  split
  · rename_i identifier
    rw [counterpart.name identifier, names.ofName?_rename (counterpart.identifies identifier)]
  · rfl

end Counterpart

variable (first second : Source)

/-- Whether two faults are of one class and stand at corresponding tokens. -/
structure Reported (d e : Diagnostic) : Prop where
  kind : e.kind = d.kind
  place : ∃ t u, names.Counterpart first second t u ∧
    d.position = t.position ∧ e.position = u.position

/-- Whether two cursors stand at the same index in two sources that scan. -/
structure Beside (c d : Cursor) : Prop where
  fault : c.fault = none
  faultToo : d.fault = none
  place : ∃ i, (TokenStream.ofSource first).tokens.drop i = c.current :: c.rest ∧
    (TokenStream.ofSource second).tokens.drop i = d.current :: d.rest

/-- Whether two readers of tokens read the same. -/
inductive Reads {α : Type} : Except Diagnostic (α × Cursor) → Except Diagnostic (α × Cursor) → Prop
  | both {a : α} {c d : Cursor} (beside : Beside first second c d) : Reads (.ok (a, c)) (.ok (a, d))
  | neither {d e : Diagnostic} (reported : names.Reported first second d e) :
    Reads (.error d) (.error e)

section

variable {names first second} {α β : Type}

theorem Counterpart.reported {t u : Token} (counterpart : names.Counterpart first second t u)
    {cause other : Diagnostic.Cause} (kind : other.kind = cause.kind) (c d : Cursor) :
    names.Reported first second (c.diagnostic t cause) (d.diagnostic u other) :=
  ⟨kind, t, u, counterpart, rfl, rfl⟩

namespace Beside

variable (related : names.Relates first second) {c d : Cursor} (beside : Beside first second c d)

include related beside

theorem current : names.Counterpart first second c.current d.current := by
  obtain ⟨i, here, there⟩ := beside.place
  constructor
  · refine ⟨i, ?_, ?_⟩
    · rw [← List.head?_drop, here]
      rfl
    · rw [← List.head?_drop, there]
      rfl
  · have tail := List.forall₂_drop i related.tokens
    rw [here, there] at tail
    cases tail
    assumption

theorem remaining : d.remaining = c.remaining := by
  obtain ⟨i, here, there⟩ := beside.place
  have tail := (List.forall₂_drop i related.tokens).length_eq
  rw [here, there] at tail
  exact tail.symm

theorem next : ∃ e f, c.next = .ok e ∧ d.next = .ok f ∧ Beside first second e f := by
  obtain ⟨i, here, there⟩ := beside.place
  have tail := List.forall₂_drop i related.tokens
  rw [here, there, List.forall₂_cons] at tail
  -- Both cursors have tokens left, or neither has.
  cases rest : c.rest with
  | nil =>
    rw [rest] at tail
    have last := List.forall₂_nil_left_iff.mp tail.2
    refine ⟨c, d, ?_, ?_, beside⟩
    · rw [Cursor.next, rest, beside.fault]
    · rw [Cursor.next, last, beside.faultToo]
  | cons t later =>
    rw [rest] at tail
    obtain ⟨u, laterToo, _, _, last⟩ := List.forall₂_cons_left_iff.mp tail.2
    refine ⟨_, _, by rw [Cursor.next, rest], by rw [Cursor.next, last], ?_⟩
    refine ⟨beside.fault, beside.faultToo, i + 1, ?_, ?_⟩
    · rw [← List.drop_drop, here, rest]
      rfl
    · rw [← List.drop_drop, there, last]
      rfl

theorem reads_next {f g : Cursor → Except Diagnostic (α × Cursor)}
    (rest : ∀ c d, Beside first second c d → names.Reads first second (f c) (g d)) :
    names.Reads first second (c.next >>= f) (d.next >>= g) := by
  obtain ⟨e, f, left, right, after⟩ := beside.next related
  rw [left, right]
  exact rest e f after

theorem reads_expect (symbol : Bytes) {f g : Cursor → Except Diagnostic (α × Cursor)}
    (rest : ∀ c d, Beside first second c d → names.Reads first second (f c) (g d)) :
    names.Reads first second (c.expect symbol >>= f) (d.expect symbol >>= g) := by
  have here := beside.current related
  rw [Cursor.expect, Cursor.expect, here.is]
  split
  · exact beside.reads_next related rest
  · exact .neither (here.reported (by rfl) c d)

theorem reads_shapeWithin (fuel : Nat) :
    names.Reads first second (Cursor.shapeWithin fuel c) (Cursor.shapeWithin fuel d) := by
  have refuse : names.Reported first second (c.diagnostic c.current (.expectedType c.current))
      (d.diagnostic d.current (.expectedType d.current)) :=
    (beside.current related).reported (by rfl) c d
  induction fuel generalizing c d with
  | zero => exact .neither refuse
  | succ fuel ih =>
    have here := beside.current related
    rw [Cursor.shapeWithin, Cursor.shapeWithin, here.is, here.namedShape?]
    split
    · apply beside.reads_next related
      intro c d beside
      apply beside.reads_expect related
      intro c d beside
      have inner := ih beside ((beside.current related).reported (by rfl) c d)
      generalize Cursor.shapeWithin fuel c = left at inner
      generalize Cursor.shapeWithin fuel d = right at inner
      cases inner with
      | both after => exact .both after
      | neither reported => exact .neither reported
    · cases Cursor.namedShape? c.current with
      | some shape =>
        apply beside.reads_next related
        intro c d beside
        exact .both beside
      | none => exact .neither refuse

theorem reads_shape : names.Reads first second c.shape d.shape := by
  rw [Cursor.shape, Cursor.shape, beside.remaining related]
  exact beside.reads_shapeWithin related _

end Beside

omit names in
private theorem ofSource_of_scans {source : Source}
    (scans : (TokenStream.ofSource source).fault = none) : ∃ c, Cursor.ofSource source = .ok c := by
  simp only [Cursor.ofSource, Cursor.next, scans]
  cases (TokenStream.ofSource source).tokens with
  | nil => exact ⟨_, rfl⟩
  | cons token rest => exact ⟨_, rfl⟩

/-- Two sources that scan start at corresponding tokens. -/
theorem Relates.start (related : names.Relates first second) :
    ∃ c d, Cursor.ofSource first = .ok c ∧ Cursor.ofSource second = .ok d ∧
      Beside first second c d := by
  obtain ⟨c, started⟩ := ofSource_of_scans related.scans
  obtain ⟨d, startedToo⟩ := ofSource_of_scans related.scansToo
  obtain ⟨fault, tokens⟩ := Cursor.tokens_of_ofSource started
  obtain ⟨faultToo, tokensToo⟩ := Cursor.tokens_of_ofSource startedToo
  refine ⟨c, d, started, startedToo, ?_, ?_, 0, tokens, tokensToo⟩
  · rw [fault, related.scans]
  · rw [faultToo, related.scansToo]

end

/-- A variable under its new name. -/
def entry (v : Variable Ty) : Variable Ty := { v with name := names.rename v.name }

/-- Variables under their new names. -/
def scope (s : Scope Ty) : Scope Ty := ⟨s.entries.map names.entry⟩

/-- Whether all names of variables are identifiers. -/
def Named (s : Scope Ty) : Prop := ∀ v ∈ s.entries, Token.Identifies v.name

section

variable {s : Scope Ty} {name : Bytes} (named : Named s) (known : Token.Identifies name)

include named known

theorem find?_scope : (names.scope s).find? (names.rename name) = (s.find? name).map names.entry := by
  rw [Scope.find?, Scope.find?, scope, List.find?_map]
  congr 1
  apply List.find?_congr
  intro v member
  apply decide_eq_decide.mpr
  constructor
  · intro same
    exact names.injective _ _ (named v member) known same
  · intro same
    rw [← same]
    rfl

theorem add_scope (type : Ty) :
    (names.scope s).add (names.rename name) type =
      (names.entry (s.add name type).1, names.scope (s.add name type).2) := by
  rw [Scope.add, Scope.add, names.find?_scope named known]
  cases s.find? name with
  | some v => rfl
  | none => simp [scope, entry, Scope.size]

theorem named_add (type : Ty) : Named (s.add name type).2 := by
  rw [Scope.add]
  cases s.find? name with
  | some v => exact named
  | none =>
    intro v member
    rcases List.mem_append.mp member with old | new
    · exact named v old
    · rw [List.mem_singleton.mp new]
      exact known

end

end Renaming

namespace Compiler

open Renaming (Beside)

variable (names : Renaming) (first second : Source)

/-- Whether two compilations are equally far. -/
structure Session.Paired (s t : Session) : Prop where
  cursor : Beside first second s.cursor t.cursor
  scope : t.scope = names.scope s.scope
  named : Renaming.Named s.scope
  builder : t.builder = s.builder

/-- Whether two compilations end alike: both with related results and equally far, or both with the
same fault. -/
inductive Alike {α β : Type} (V : α → β → Prop) :
    Except Failure α × Session → Except Failure β × Session → Prop
  | success {a : α} {b : β} {s t : Session} (values : V a b)
      (paired : s.Paired names first second t) : Alike V (.ok a, s) (.ok b, t)
  | diagnostic {d e : Diagnostic} {s t : Session} (reported : names.Reported first second d e) :
    Alike V (.error (.diagnostic d), s) (.error (.diagnostic e), t)
  | misuse {m : Codegen.Misuse} {s t : Session} :
    Alike V (.error (.misuse m), s) (.error (.misuse m), t)

/-- Whether two steps of a compilation, the second with what corresponds to the names and tokens of
the first, always end alike. -/
def Corresponds {α β : Type} (V : α → β → Prop) (x : Compiler α) (y : Compiler β) : Prop :=
  ∀ s t, s.Paired names first second t → Alike names first second V (perform x s) (perform y t)

namespace Corresponds

variable {names first second} {α β γ δ : Type} {V : α → β → Prop} {W : γ → δ → Prop}

theorem pure {a : α} {b : β} (values : V a b) :
    Corresponds names first second V (pure a) (pure b) := by
  intro s t paired
  exact .success values paired

theorem bind {x : Compiler α} {y : Compiler β} {f : α → Compiler γ} {g : β → Compiler δ}
    (start : Corresponds names first second V x y)
    (rest : ∀ a b, V a b → Corresponds names first second W (f a) (g b)) :
    Corresponds names first second W (x >>= f) (y >>= g) := by
  intro s t paired
  have started := start s t paired
  rw [perform_bind, perform_bind]
  generalize perform x s = left at started
  generalize perform y t = right at started
  cases started with
  | success values after => exact rest _ _ values _ _ after
  | diagnostic reported => exact .diagnostic reported
  | misuse => exact .misuse

/-- A first step with the same result on both sides. -/
theorem bind_eq {x y : Compiler α} {f : α → Compiler γ} {g : α → Compiler δ}
    (start : Corresponds names first second Eq x y)
    (rest : ∀ a, Corresponds names first second W (f a) (g a)) :
    Corresponds names first second W (x >>= f) (y >>= g) := by
  apply start.bind
  rintro a _ ⟨⟩
  exact rest a

theorem seq {x y : Compiler α} {f : Compiler γ} {g : Compiler δ}
    (start : Corresponds names first second Eq x y)
    (rest : Corresponds names first second W f g) :
    Corresponds names first second W (do let _ ← x; f) (do let _ ← y; g) :=
  start.bind_eq fun _ => rest

/-- A step that looks at the current token first. -/
theorem current_bind {f : Token → Compiler γ} {g : Token → Compiler δ}
    (rest : ∀ s t : Session, s.Paired names first second t →
      Alike names first second W (perform (f s.cursor.current) s)
        (perform (g t.cursor.current) t)) :
    Corresponds names first second W (current >>= f) (current >>= g) := by
  intro s t paired
  exact rest s t paired

theorem after_current {f : Token → Compiler γ} {g : Token → Compiler δ} {s t : Session}
    (paired : s.Paired names first second t)
    (rest : Corresponds names first second W (f s.cursor.current) (g t.cursor.current)) :
    Alike names first second W (perform (Compiler.current >>= f) s)
      (perform (Compiler.current >>= g) t) :=
  rest s t paired

theorem fail {t u : Token} (counterpart : names.Counterpart first second t u)
    {cause other : Diagnostic.Cause} (kind : other.kind = cause.kind) :
    Corresponds names first second V (fail t cause) (fail u other) := by
  intro s r _
  rw [perform_fail, perform_fail]
  exact .diagnostic (counterpart.reported kind _ _)

/-- A check that fails at a token or lets the rest follow. -/
theorem check {fits : Bool} {t u : Token} (counterpart : names.Counterpart first second t u)
    {cause other : Diagnostic.Cause} (kind : other.kind = cause.kind) {f : Unit → Compiler γ}
    {g : Unit → Compiler δ} (rest : Corresponds names first second W (f ()) (g ())) :
    Corresponds names first second W
      (if fits then f () else Compiler.fail t cause >>= f)
      (if fits then g () else Compiler.fail u other >>= g) := by
  cases fits with
  | true => exact rest
  | false => exact fail counterpart kind

theorem build (step : Codegen.Build α) :
    Corresponds names first second Eq (build step) (build step) := by
  intro s t paired
  rw [perform_build, perform_build, paired.builder]
  rcases perform step s.builder with ⟨misuse | a, after⟩
  · exact .misuse
  · exact .success rfl ⟨paired.cursor, paired.scope, paired.named, rfl⟩

theorem emit (code : Assembly.Code) :
    Corresponds names first second Eq (emit code) (emit code) :=
  build _

/-- The platform is one on both sides. -/
theorem get_builder :
    Corresponds names first second (fun s t : Session => t.builder = s.builder) get get := by
  intro s t paired
  exact .success paired.builder paired

variable (related : names.Relates first second)

include related

theorem current :
    Corresponds names first second (names.Counterpart first second) current current := by
  intro s t paired
  exact .success (paired.cursor.current related) paired

theorem remaining : Corresponds names first second Eq remaining remaining := by
  intro s t paired
  exact .success (paired.cursor.remaining related).symm paired

omit related in
theorem readTokens {read : Cursor → Except Diagnostic (α × Cursor)}
    (reads : ∀ c d, Beside first second c d → names.Reads first second (read c) (read d)) :
    Corresponds names first second Eq (readTokens read) (readTokens read) := by
  intro s t paired
  have moved := reads _ _ paired.cursor
  rw [perform_readTokens, perform_readTokens]
  generalize read s.cursor = left at moved
  generalize read t.cursor = right at moved
  cases moved with
  | both beside => exact .success rfl ⟨beside, paired.scope, paired.named, paired.builder⟩
  | neither reported => exact .diagnostic reported

theorem next : Corresponds names first second Eq next next := by
  apply readTokens
  intro c d beside
  apply beside.reads_next related
  intro c d beside
  exact .both beside

theorem expect (symbol : Bytes) :
    Corresponds names first second Eq (expect symbol) (expect symbol) := by
  apply readTokens
  intro c d beside
  apply beside.reads_expect related
  intro c d beside
  exact .both beside

theorem shape : Corresponds names first second Eq (Compiler.readTokens Cursor.shape)
    (Compiler.readTokens Cursor.shape) := by
  apply readTokens
  intro c d beside
  exact beside.reads_shape related

theorem accept (symbol : Bytes) :
    Corresponds names first second Eq (accept symbol) (accept symbol) := by
  apply (current related).bind
  intro t u counterpart
  rw [counterpart.is]
  split
  · exact (next related).seq (pure rfl)
  · exact pure rfl

omit related

variable {t u : Token} (counterpart : names.Counterpart first second t u)
  (identifier : t.kind = .ident)

include counterpart identifier

theorem lookup :
    Corresponds names first second (fun v w => w = names.entry v) (lookup t) (lookup u) := by
  intro s r paired
  have found := names.find?_scope paired.named (counterpart.identifies identifier)
  rw [Compiler.lookup, Compiler.lookup, perform_bind, perform_bind, perform_get, perform_get]
  simp only [paired.scope, counterpart.name identifier, found]
  cases s.scope.find? t.text with
  | some v => exact .success rfl paired
  | none => exact fail counterpart (by rfl) s r paired

theorem assigned {p q : Token} (value : names.Counterpart first second p q) (type : Ty) :
    Corresponds names first second (fun v w => w = names.entry v) (assigned t p type)
      (assigned u q type) := by
  intro s r paired
  have known := counterpart.identifies identifier
  have found := names.find?_scope paired.named known
  have added := names.add_scope paired.named known type.general
  rw [Compiler.assigned, Compiler.assigned, perform_bind, perform_bind, perform_get, perform_get]
  simp only [paired.scope, counterpart.name identifier, found, added]
  cases s.scope.find? t.text with
  | some v =>
    have checked : Corresponds names first second (fun v w => w = names.entry v)
        (do
          unless v.type.compatible type do
            Compiler.fail p (.badAssignment type v.name v.type)
          return v)
        (do
          unless v.type.compatible type do
            Compiler.fail q (.badAssignment type (names.rename v.name) v.type)
          return names.entry v) := by
      apply check value (by rfl)
      exact pure rfl
    exact checked s r paired
  | none =>
    have named := Renaming.named_add paired.named known type.general
    generalize s.scope.add t.text type.general = declared at named
    have size : (names.scope declared.2).size = declared.2.size := by
      simp [Renaming.scope, Scope.size]
    have reserved : Corresponds names first second (fun v w => w = names.entry v)
        (do
          Compiler.build (Codegen.Builder.reserve (wordSize * declared.2.size : Nat))
          return declared.1)
        (do
          Compiler.build (Codegen.Builder.reserve (wordSize * declared.2.size : Nat))
          return names.entry declared.1) := by
      exact (build _).seq (pure rfl)
    rw [size]
    exact reserved _ _ ⟨paired.cursor, rfl, named, paired.builder⟩

end Corresponds

end Compiler

end Onepass
