import Onepass.Proofs.Grammar.Program

/-! Scanning and reading a type always end. Both are written here once more with a limit on their
rounds, and have no result when it is reached. It never is, if it is as large as the text is long:
each token of a source takes a character, and each bracket of a type takes tokens. -/
namespace Onepass

namespace TokenStream

/-- All tokens from a reader on; nothing if there are more than `rounds`. -/
def scanLimited (source : Source) : (rounds : Nat) → Reader → Option TokenStream
  | 0, _ => none
  | rounds + 1, r =>
    match r.scan source with
    | (.error fault, _) => some ⟨[], some fault⟩
    | (.ok token, next) =>
      if token.kind = .eof then some ⟨[token], none⟩
      else do
        let rest ← scanLimited source rounds next
        return ⟨token :: rest.tokens, rest.fault⟩

section

variable {source : Source} {fuel rounds : Nat} {r : Reader}

theorem scanLimited_eq (enough : r.rest.length < fuel) (more : r.rest.length < rounds) :
    scanLimited source rounds r = some (scanFrom source fuel r) := by
  induction fuel generalizing r rounds with
  | zero => cases enough
  | succ fuel ih =>
    cases rounds with
    | zero => cases more
    | succ rounds =>
      rw [scanLimited, scanFrom]
      rcases read : r.scan source with ⟨fault | token, next⟩
      · rfl
      · simp only
        by_cases eof : token.kind = .eof
        · rw [if_pos eof, if_pos eof]
        · have shorter := length_scan read eof
          rw [if_neg eof, if_neg eof, ih (by omega) (by omega)]
          rfl

/-- No end of input comes before a fault. -/
theorem ne_eof_of_fault (faulty : (scanFrom source fuel r).fault ≠ none) :
    ∀ token ∈ (scanFrom source fuel r).tokens, token.kind ≠ .eof := by
  induction fuel generalizing r with
  | zero => exact absurd rfl faulty
  | succ fuel ih =>
    rcases read : r.scan source with ⟨fault | token, next⟩
    · simp [scanFrom, read]
    · by_cases eof : token.kind = .eof
      · simp [scanFrom, read, eof] at faulty
      · simp only [scanFrom, read, if_neg eof] at faulty ⊢
        intro other member
        rcases List.mem_cons.mp member with rfl | later
        · exact eof
        · exact ih faulty other later

theorem length_scanFrom_le : (scanFrom source fuel r).tokens.length ≤ fuel := by
  induction fuel generalizing r with
  | zero => exact Nat.le_refl _
  | succ fuel ih =>
    rw [scanFrom]
    rcases r.scan source with ⟨fault | token, next⟩
    · exact Nat.zero_le _
    · simp only
      split
      · exact Nat.succ_le_succ (Nat.zero_le _)
      · exact Nat.succ_le_succ ih

end

end TokenStream

namespace Syntax

namespace Cursor

/-- Whether the tokens come to an end: the end of input, or a fault before it. -/
structure Finishes (c : Cursor) : Prop where
  last : c.fault = none → ∀ last, (c.current :: c.rest).getLast? = some last → last.kind = .eof
  early : c.fault ≠ none → ∀ token ∈ c.current :: c.rest, token.kind ≠ .eof

section

variable {c after : Cursor}

theorem next_finishes (finishes : c.Finishes) (moved : c.next = .ok after) : after.Finishes := by
  unfold next at moved
  split at moved
  · rename_i token rest here
    cases moved
    constructor
    · intro fine last final
      refine finishes.last fine last ?_
      rw [here, List.getLast?_cons_cons]
      exact final
    · intro faulty other member
      refine finishes.early faulty other (List.mem_cons_of_mem _ ?_)
      rw [here]
      exact member
  · split at moved
    · cases moved
    · cases moved
      exact finishes

/-- Moving on from a token takes it, unless it is the end of input. -/
theorem next_less (finishes : c.Finishes) (other : c.current.kind ≠ .eof)
    (moved : c.next = .ok after) : after.remaining < c.remaining := by
  unfold next at moved
  split at moved
  · rename_i token rest here
    cases moved
    simp [remaining, here]
  · rename_i here
    split at moved
    · cases moved
    · rename_i fine
      exact absurd (finishes.last fine c.current (by simp [here])) other

theorem fault_next (moved : c.next = .ok after) : after.fault = c.fault := by
  unfold next at moved
  split at moved
  · cases moved
    rfl
  · split at moved
    · cases moved
    · cases moved
      rfl

theorem ne_eof_of_expect {symbol : Bytes} (passed : c.expect symbol = .ok after) :
    c.current.kind ≠ .eof ∧ c.next = .ok after := by
  unfold expect at passed
  split at passed
  · rename_i found
    exact ⟨Parser.ne_eof_of_is found, passed⟩
  · cases passed

/-- At the first token of a source; nothing if there are more tokens than `rounds`. -/
def ofSourceLimited (rounds : Nat) (source : Source) : Option (Except Diagnostic Cursor) := do
  let stream ← TokenStream.scanLimited source rounds (Reader.ofSource source)
  return next ⟨source, ⟨.eof, [], 0, .start⟩, stream.tokens, stream.fault⟩

section

variable {source : Source} {cursor : Cursor}

theorem ofSourceLimited_eq {rounds : Nat} (enough : source.chars.length < rounds) :
    ofSourceLimited rounds source = some (ofSource source) := by
  rw [ofSourceLimited, TokenStream.scanLimited_eq (Nat.lt_succ_self _) enough]
  rfl

/-- A parser starts at the first token. -/
theorem tokens_of_ofSource (started : ofSource source = .ok cursor) :
    cursor.fault = (TokenStream.ofSource source).fault ∧
      (TokenStream.ofSource source).tokens = cursor.current :: cursor.rest := by
  simp only [ofSource, next] at started
  split at started
  · rename_i token rest here
    cases started
    exact ⟨rfl, here⟩
  · rename_i here
    split at started
    · cases started
    · rename_i fine
      obtain ⟨body, last, whole, _⟩ := TokenStream.ofSource_ends fine
      rw [here] at whole
      exact absurd whole.symm (by simp)

/-- There are at most as many tokens as characters, and the end of input. -/
theorem remaining_ofSource_le (started : ofSource source = .ok cursor) :
    cursor.remaining ≤ source.chars.length + 1 := by
  have bound : (TokenStream.ofSource source).tokens.length ≤ source.chars.length + 1 :=
    TokenStream.length_scanFrom_le
  rw [(tokens_of_ofSource started).2] at bound
  exact bound

theorem ofSource_finishes (started : ofSource source = .ok cursor) : cursor.Finishes := by
  obtain ⟨fault, tokens⟩ := tokens_of_ofSource started
  constructor
  · intro fine last final
    obtain ⟨body, eof, whole, kind, _⟩ := TokenStream.ofSource_ends (fault.symm.trans fine)
    rw [← tokens, whole, List.getLast?_append] at final
    cases final
    exact kind
  · rw [fault, ← tokens]
    exact TokenStream.ne_eof_of_fault

end

/-- Reads a type; nothing if it has `rounds` brackets or more. -/
def shapeLimited : (rounds : Nat) → Cursor → ExceptT Diagnostic Option (Shape × Cursor)
  | 0, _ => ExceptT.mk none
  | rounds + 1, c =>
    if c.current.is "[" then do
      let c ← ExceptT.mk (some c.next)
      let c ← ExceptT.mk (some (c.expect "]"))
      let (element, c) ← shapeLimited rounds c
      return (.array element, c)
    else
      match namedShape? c.current with
      | some shape => do
        let c ← ExceptT.mk (some c.next)
        return (shape, c)
      | none => throw (c.diagnostic c.current (.expectedType c.current))

theorem mk_ok_bind {α β : Type} (a : α) (later : α → ExceptT Diagnostic Option β) :
    (ExceptT.mk (some (Except.ok a)) >>= later) = later a := rfl

/-- Reading a type ends, after at least one token. -/
theorem shapeLimited_eq {fuel rounds : Nat} (finishes : c.Finishes) (enough : c.remaining ≤ fuel)
    (more : c.remaining ≤ rounds) :
    shapeLimited rounds c = ExceptT.mk (some (shapeWithin fuel c)) ∧
      ∀ shape after, shapeWithin fuel c = .ok (shape, after) →
        after.Finishes ∧ after.remaining < c.remaining ∧ after.fault = c.fault := by
  induction fuel generalizing c rounds with
  | zero => simp [remaining] at enough
  | succ fuel ih =>
    obtain ⟨rounds, rfl⟩ : ∃ fewer, rounds = fewer + 1 :=
      Nat.exists_eq_add_one.mpr (Nat.lt_of_lt_of_le (Nat.succ_pos _) more)
    rw [shapeLimited, shapeWithin]
    by_cases opens : c.current.is "[" = true
    · rw [if_pos opens, if_pos opens]
      rcases moved : c.next with d | inner
      · exact ⟨rfl, by rintro _ _ ⟨⟩⟩
      have less := next_less finishes (Parser.ne_eof_of_is opens) moved
      rw [mk_ok_bind, ok_bind]
      rcases passed : inner.expect "]" with d | rest
      · exact ⟨rfl, by rintro _ _ ⟨⟩⟩
      obtain ⟨other, stepped⟩ := ne_eof_of_expect passed
      have finishes := next_finishes finishes moved
      have lesser := next_less finishes other stepped
      have fewer : rest.remaining ≤ rounds := by omega
      obtain ⟨same, ended⟩ := ih (next_finishes finishes stepped) (by omega) fewer
      rw [mk_ok_bind, ok_bind, same]
      rcases read : shapeWithin fuel rest with d | ⟨element, last⟩
      · exact ⟨rfl, by rintro _ _ ⟨⟩⟩
      refine ⟨rfl, ?_⟩
      rintro _ _ ⟨⟩
      obtain ⟨finishes, least, fault⟩ := ended element last read
      refine ⟨finishes, by omega, ?_⟩
      rw [fault, fault_next stepped, fault_next moved]
    · rw [if_neg opens, if_neg opens]
      cases named : namedShape? c.current with
      | none => exact ⟨rfl, by rintro _ _ ⟨⟩⟩
      | some shape =>
        have other : c.current.kind ≠ .eof := by
          intro eof
          simp [namedShape?, eof] at named
        rcases moved : c.next with d | after
        · exact ⟨rfl, by rintro _ _ ⟨⟩⟩
        refine ⟨rfl, ?_⟩
        rintro _ _ ⟨⟩
        exact ⟨next_finishes finishes moved, next_less finishes other moved, fault_next moved⟩

end

end Cursor

end Syntax

end Onepass
