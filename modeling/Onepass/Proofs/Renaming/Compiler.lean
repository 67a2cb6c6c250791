import Onepass.Proofs.Lockstep.Program
import Onepass.Proofs.Renaming.Positions
import Onepass.Proofs.Renaming.Relation

/-! A compilation depends on the tokens of its source only, and not on what its variables are called.
Sources with the same tokens up to a renaming give the same text, or faults of one class at the same
token: no name, place or spelling of a number gets into the code, or decides anything. -/
namespace Onepass

open Syntax (Cursor)

namespace Compiler

namespace Corresponds

variable {names : Renaming} {first second : Source} (related : names.Relates first second)

include related

section

variable {nested : Compiler Ty} (uniform : Corresponds names first second Eq nested nested)

include uniform

theorem index (container : Ty) :
    Corresponds names first second Eq (index nested container) (index nested container) := by
  apply (expect related _).seq
  apply (emit _).seq
  apply (current related).bind
  intro t u here
  apply uniform.bind_eq
  intro type
  apply check here (by rfl)
  apply (expect related _).seq
  apply (emit _).seq
  exact build _

/-- The name of the variable only matters for what is reported. -/
theorem selections (name other : Bytes) (fuel : Nat) (type : Ty) :
    Corresponds names first second Eq (selections nested name fuel type)
      (selections nested other fuel type) := by
  induction fuel generalizing type with
  | zero => exact pure rfl
  | succ fuel ih =>
    apply (current related).bind
    intro t u here
    rw [here.is]
    split
    · cases type.element? with
      | none => exact fail here (by rfl)
      | some element =>
        apply (index related uniform _).seq
        apply (emit _).seq
        exact ih element
    · exact pure rfl

theorem selected {s t : Session} (paired : s.Paired names first second t)
    (identifier : s.cursor.current.kind = .ident) :
    Alike names first second Eq (perform (selected nested) s) (perform (selected nested) t) := by
  have here := paired.cursor.current related
  apply after_current paired
  apply (lookup here identifier).bind
  rintro v _ ⟨⟩
  apply (next related).seq
  apply (emit _).seq
  apply (remaining related).bind_eq
  intro fuel
  exact selections related uniform _ _ fuel v.type

omit related uniform in
theorem storeElement (element : Ty) (position : Nat) :
    Corresponds names first second Eq (storeElement element position)
      (storeElement element position) :=
  (emit _).seq (emit _)

theorem elements (element : Ty) (fuel position : Nat) :
    Corresponds names first second Eq (elements nested element fuel position)
      (elements nested element fuel position) := by
  induction fuel generalizing position with
  | zero => exact (expect related _).seq (pure rfl)
  | succ fuel ih =>
    apply (accept related _).bind_eq
    rintro (_ | _)
    · apply (expect related _).seq
      apply (accept related _).bind_eq
      rintro (_ | _)
      · apply (current related).bind
        intro t u here
        apply uniform.bind_eq
        intro type
        apply check here (by rfl)
        exact (storeElement element position).seq (ih (position + 1))
      · exact pure rfl
    · exact pure rfl

theorem array : Corresponds names first second Eq (array nested) (array nested) := by
  apply (accept related _).bind_eq
  rintro (_ | _)
  · apply (build _).seq
    apply uniform.bind_eq
    intro value
    apply (storeElement _ _).seq
    apply (remaining related).bind_eq
    intro fuel
    apply (elements related uniform _ fuel 1).bind_eq
    intro count
    apply (build _).bind_eq
    intro stores
    apply (build _).seq
    apply (emit _).seq
    apply (emit _).seq
    apply (emit _).seq
    apply (emit _).seq
    exact pure rfl
  · apply (shape related).bind_eq
    intro element
    apply (build _).seq
    apply (emit _).seq
    exact pure rfl

theorem unary : Corresponds names first second Eq (unary nested) (unary nested) := by
  apply current_bind
  intro s t paired
  have here := paired.cursor.current related
  rw [here.kind]
  -- The payload of the token matters to the literals only.
  cases kind : s.cursor.current.kind with
  | ident => exact selected related uniform paired kind
  | int =>
    rw [here.value (.inl kind)]
    exact (emit _).seq ((next related).seq (pure rfl)) s t paired
  | char =>
    rw [here.value (.inr kind)]
    exact (emit _).seq ((next related).seq (pure rfl)) s t paired
  | string =>
    rw [here.text (.inl kind)]
    apply (build _).bind_eq _ s t paired
    intro label
    exact (emit _).seq ((next related).seq (pure rfl))
  | op | keyword | eof | other =>
    simp only [here.is]
    split
    · apply ((next related).seq _) s t paired
      apply uniform.bind_eq
      intro type
      exact (expect related _).seq (pure rfl)
    · split
      · exact ((next related).seq (array related uniform)) s t paired
      · exact fail here (by rfl) s t paired

theorem factor : Corresponds names first second Eq (factor nested) (factor nested) := by
  apply (current related).bind
  intro t u here
  rw [here.is]
  split
  · apply (next related).seq
    apply (unary related uniform).bind_eq
    intro type
    cases Codegen.operation? type .negate with
    | some code => exact (emit _).seq (pure rfl)
    | none => exact fail here (by rfl)
  · exact unary related uniform

end

omit related in
theorem operate {t u : Token} (here : names.Counterpart first second t u) (operator : Operator)
    (left right : Ty) :
    Corresponds names first second Eq (operate t operator left right)
      (operate u operator left right) := by
  unfold Compiler.operate
  cases left.union? right with
  | none => exact fail here (by rfl)
  | some type =>
    simp only
    cases Codegen.operation? type (.binary operator) with
    | none => exact fail here (by rfl)
    | some code => exact (emit _).seq (pure rfl)

section

variable {operand : Compiler Ty} (uniform : Corresponds names first second Eq operand operand)

include uniform

theorem chain (level : Operator.Level) (fuel : Nat) (left : Ty) :
    Corresponds names first second Eq (chain level operand fuel left)
      (chain level operand fuel left) := by
  induction fuel generalizing left with
  | zero => exact pure rfl
  | succ fuel ih =>
    apply (current related).bind
    intro t u here
    rw [here.operator?]
    cases level.operator? t with
    | none => exact pure rfl
    | some operator =>
      apply (emit _).seq
      apply (next related).seq
      apply uniform.bind_eq
      intro right
      apply (operate here operator left right).bind_eq
      intro type
      exact ih type

theorem binary (level : Operator.Level) :
    Corresponds names first second Eq (binary level operand) (binary level operand) := by
  apply uniform.bind_eq
  intro left
  apply (remaining related).bind_eq
  intro fuel
  exact chain related uniform level fuel left

end

theorem expressionWithin (fuel : Nat) :
    Corresponds names first second Eq (expressionWithin fuel) (expressionWithin fuel) := by
  induction fuel with
  | zero =>
    apply (current related).bind
    intro t u here
    exact fail here (by rfl)
  | succ fuel ih =>
    apply binary related
    apply binary related
    apply binary related
    exact factor related ih

theorem expression : Corresponds names first second Eq expression expression := by
  apply (remaining related).bind_eq
  exact expressionWithin related

theorem elementTarget (fuel : Nat) (element : Shape) :
    Corresponds names first second Eq (elementTarget fuel element) (elementTarget fuel element) := by
  induction fuel generalizing element with
  | zero => exact (index related (expression related) _).seq (pure rfl)
  | succ fuel ih =>
    apply (index related (expression related) _).seq
    apply (current related).bind
    intro t u here
    rw [here.is]
    split
    · cases element with
      | array inner => exact (emit _).seq (ih inner)
      | int | char | string | other => exact fail here (by rfl)
    · exact pure rfl

section

variable {t u : Token} (here : names.Counterpart first second t u) (identifier : t.kind = .ident)

include here identifier

theorem elementAssignment :
    Corresponds names first second Eq (elementAssignment t) (elementAssignment u) := by
  apply (lookup here identifier).bind
  rintro v _ ⟨⟩
  have type : (names.entry v).type = v.type := rfl
  rw [type]
  cases v.type.shape with
  | array element =>
    apply (emit _).seq
    apply (remaining related).bind_eq
    intro fuel
    apply (elementTarget related _ element).bind_eq
    intro element
    apply (emit _).seq
    apply (expect related _).seq
    apply (current related).bind
    intro p q value
    apply (expression related).bind_eq
    intro type
    apply check value (by rfl)
    exact (emit _).seq (emit _)
  | int | char | string | other => exact fail here (by rfl)

end

theorem assignment {s t : Session} (paired : s.Paired names first second t)
    (identifier : s.cursor.current.kind = .ident) :
    Alike names first second Eq (perform assignment s) (perform assignment t) := by
  have here := paired.cursor.current related
  apply after_current paired
  apply (next related).seq
  apply (current related).bind
  intro p q following
  rw [following.is]
  split
  · exact elementAssignment related here identifier
  · apply (expect related _).seq
    apply (current related).bind
    intro p q value
    apply (expression related).bind_eq
    intro type
    apply (assigned here identifier value type).bind
    rintro v _ ⟨⟩
    exact emit _

theorem print : Corresponds names first second Eq print print := by
  apply (next related).seq
  apply (current related).bind
  intro t u here
  apply (expression related).bind_eq
  intro type
  apply get_builder.bind
  intro s r same
  rw [same]
  cases Codegen.print? s.builder.platform type with
  | some code => exact emit code
  | none => exact fail here (by rfl)

theorem condition : Corresponds names first second Eq condition condition := by
  apply (current related).bind
  intro t u here
  apply (expression related).bind_eq
  intro type
  split
  · exact fail here (by rfl)
  · exact pure rfl

section

variable {nested : Compiler Unit} (uniform : Corresponds names first second Eq nested nested)

include uniform

theorem conditional :
    Corresponds names first second Eq (conditional nested) (conditional nested) := by
  apply (next related).seq
  apply (condition related).seq
  apply (build _).bind_eq
  intro otherLabel
  apply (emit _).seq
  apply uniform.seq
  apply (accept related _).bind_eq
  rintro (_ | _)
  · exact emit _
  · apply (build _).bind_eq
    intro endLabel
    apply (emit _).seq
    apply (emit _).seq
    exact uniform.seq (emit _)

theorem loop : Corresponds names first second Eq (loop nested) (loop nested) := by
  apply (next related).seq
  apply (build _).bind_eq
  intro loopLabel
  apply (build _).bind_eq
  intro exitLabel
  apply (emit _).seq
  apply (condition related).seq
  apply (emit _).seq
  apply uniform.seq
  exact (emit _).seq (emit _)

theorem blockBody (fuel : Nat) :
    Corresponds names first second Eq (blockBody nested fuel) (blockBody nested fuel) := by
  induction fuel with
  | zero => exact expect related _
  | succ fuel ih =>
    apply (current related).bind
    intro t u here
    rw [here.is, here.kind]
    split
    · exact next related
    · split
      · exact fail here (by rfl)
      · exact uniform.seq ih

end

theorem statementWithin (fuel : Nat) :
    Corresponds names first second Eq (statementWithin fuel) (statementWithin fuel) := by
  induction fuel with
  | zero =>
    apply (current related).bind
    intro t u here
    exact fail here (by rfl)
  | succ fuel ih =>
    apply current_bind
    intro s t paired
    have here := paired.cursor.current related
    simp only [here.kind, here.is]
    split
    · exact assignment related paired ‹_›
    · refine (?_ : Corresponds names first second Eq _ _) s t paired
      split
      · exact print related
      · split
        · exact conditional related ih
        · split
          · exact loop related ih
          · split
            · apply (next related).seq
              apply (remaining related).bind_eq
              exact blockBody related ih
            · exact fail here (by rfl)

theorem statements (fuel : Nat) :
    Corresponds names first second Eq (statements fuel) (statements fuel) := by
  induction fuel with
  | zero => exact pure rfl
  | succ fuel ih =>
    apply (current related).bind
    intro t u here
    rw [here.kind]
    split
    · exact pure rfl
    · refine seq ?_ ih
      apply (remaining related).bind_eq
      exact statementWithin related

theorem program : Corresponds names first second Eq program program := by
  apply (build _).seq
  apply (remaining related).bind_eq
  intro fuel
  exact (statements related fuel).seq (build _)

end Corresponds

/-- What two compilations of one program leave behind. -/
theorem run_alike {names : Renaming} {first second : Source} (related : names.Relates first second)
    (platform : Platform) :
    ((run first platform).result = .ok () ∧ (run second platform).result = .ok () ∧
        (run second platform).builder = (run first platform).builder) ∨
      (∃ d e, (run first platform).result = .error (.diagnostic d) ∧
        (run second platform).result = .error (.diagnostic e) ∧ names.Reported first second d e) ∨
      ∃ misuse, (run first platform).result = .error (.misuse misuse) := by
  obtain ⟨c, d, started, startedToo, beside⟩ := related.start
  have outcome {source : Source} {cursor : Cursor} (started : Cursor.ofSource source = .ok cursor) :
      run source platform = ⟨(perform program ⟨cursor, {}, { platform }⟩).1,
        (perform program ⟨cursor, {}, { platform }⟩).2.scope,
        (perform program ⟨cursor, {}, { platform }⟩).2.builder⟩ := by
    rw [run, started]
    rfl
  have alike := Corresponds.program related ⟨c, {}, { platform }⟩ ⟨d, {}, { platform }⟩
    ⟨beside, rfl, List.forall_mem_nil _, rfl⟩
  rw [outcome started, outcome startedToo]
  generalize perform program ⟨c, {}, { platform }⟩ = left at alike
  generalize perform program ⟨d, {}, { platform }⟩ = right at alike
  cases alike with
  | success _ paired => exact .inl ⟨rfl, rfl, paired.builder⟩
  | diagnostic reported => exact .inr (.inl ⟨_, _, rfl, rfl, reported⟩)
  | misuse => exact .inr (.inr ⟨_, rfl⟩)

/-- Two sources whose tokens agree up to a renaming of identifiers, whatever their names, layout,
comments and spelling of numbers, compile alike: to the same text, or with faults of one class at
the same token. -/
theorem compile_renaming (names : Renaming) (first second : Source) (platform : Platform)
    (related : names.Relates first second) :
    (∀ text, compile first platform = .ok text ↔ compile second platform = .ok text) ∧
      ∀ failure, compile first platform = .error failure →
        ∃ d e index, failure = .diagnostic d ∧ compile second platform = .error (.diagnostic e) ∧
          e.kind = d.kind ∧ d.ReportedAt first index ∧ e.ReportedAt second index := by
  rcases run_alike related platform with ⟨done, doneToo, same⟩ | ⟨d, e, failed, failedToo, reported⟩ |
    ⟨misuse, failed⟩
  · constructor
    · intro text
      simp only [compile, done, doneToo, same]
    · intro failure failed
      simp only [compile, done] at failed
      cases failed
  · obtain ⟨t, u, counterpart, place, placeToo⟩ := reported.place
    obtain ⟨index, here, there⟩ := counterpart.index
    constructor
    · intro text
      simp only [compile, failed, failedToo, reduceCtorEq]
    · intro failure refused
      simp only [compile, failed] at refused
      cases refused
      refine ⟨d, e, index, rfl, ?_, reported.kind, ?_, ?_⟩
      · simp only [compile, failedToo]
      · exact Diagnostic.reportedAt here place
      · exact Diagnostic.reportedAt there placeToo
  · -- No program misuses the builder.
    cases verdict first platform with
    | accepted _ _ _ outcome =>
      rw [outcome] at failed
      cases failed
    | refused _ _ refused | illTyped _ _ refused _ =>
      rw [refused] at failed
      cases failed

/-- Exchanges two names. -/
def exchange : Renaming where
  rename := Equiv.swap (Bytes.ofString "a") (Bytes.ofString "total")
  injective x y _ _ same := (Equiv.swap _ _).injective same
  int := by decide +kernel
  char := by decide +kernel
  string := by decide +kernel

private def selecting : Source := ⟨"one", "a = [1, 007]\ntotal = a[1] print total"⟩

private def selectingToo : Source := ⟨"", "total=[01,7]a=total[1]# sum\n\tprint a"⟩

private def unprintable : Source := ⟨"one", "a = [1]\nprint a"⟩

private def unprintableToo : Source := ⟨"", "total=[1] print # it\n total"⟩

private theorem relates_selecting : exchange.Relates selecting selectingToo :=
  ⟨by decide +kernel, by decide +kernel, by decide +kernel⟩

private theorem relates_unprintable : exchange.Relates unprintable unprintableToo :=
  ⟨by decide +kernel, by decide +kernel, by decide +kernel⟩

/-- Names, layout, comments and leading zeros leave no trace in a text, and a fault stays at its
token. -/
theorem compile_renaming_layout :
    (∃ text, compile selecting .linux = .ok text ∧ compile selectingToo .linux = .ok text) ∧
    ∃ d e, compile unprintable .darwin = .error (.diagnostic d) ∧
      compile unprintableToo .darwin = .error (.diagnostic e) ∧ e.kind = d.kind ∧
      ∃ index, d.ReportedAt unprintable index ∧ e.ReportedAt unprintableToo index := by
  constructor
  · have renamed := compile_renaming _ _ _ .linux relates_selecting
    have compiles : (compile selecting .linux).isOk = true := by decide +kernel
    cases done : compile selecting .linux with
    | ok text => exact ⟨text, rfl, (renamed.1 text).mp done⟩
    | error failure =>
      rw [done] at compiles
      cases compiles
  · have renamed := compile_renaming _ _ _ .darwin relates_unprintable
    have fails : (compile unprintable .darwin).isOk = false := by decide +kernel
    cases done : compile unprintable .darwin with
    | ok text =>
      rw [done] at fails
      cases fails
    | error failure =>
      obtain ⟨d, e, index, rfl, failed, kind, here, there⟩ := renamed.2 failure done
      exact ⟨d, e, rfl, failed, kind, index, here, there⟩

end Compiler

end Onepass
