import Onepass.Proofs.Grammar.Program

/-! Tokens stand one after the other in their source, so a place tells which token stands there. -/
namespace Onepass

namespace Position

/-- Places in the order of a text: by lines, and in a line by columns. -/
def key (p : Position) : ℕ ×ₗ ℕ := toLex (p.line, p.column)

theorem key_after (p : Position) (c : Char) : p.key < (p.after c).key := by
  rw [key, key, Prod.Lex.toLex_lt_toLex, after]
  split
  · exact .inl (Nat.lt_succ_self _)
  · exact .inr ⟨rfl, Nat.lt_succ_self _⟩

theorem key_afterAll_le (p : Position) (text : List Char) : p.key ≤ (p.afterAll text).key := by
  induction text generalizing p with
  | nil => exact le_refl _
  | cons c rest ih => exact (key_after p c).le.trans (ih (p.after c))

theorem key_afterAll_lt (p : Position) {text : List Char} (some : text ≠ []) :
    p.key < (p.afterAll text).key := by
  cases text with
  | nil => exact absurd rfl some
  | cons c rest => exact (key_after p c).trans_le (key_afterAll_le (p.after c) rest)

end Position

namespace TokenStream

variable {source : Source}

/-- A token stands at or after the place of its reader, and ends before the next one starts. -/
theorem key_scan {r next : Reader} {token : Token} (read : r.scan source = (.ok token, next)) :
    r.position.key ≤ token.position.key ∧
      (token.kind ≠ .eof → token.position.key < next.position.key) := by
  have skipped : r.position.key ≤ r.skipBlank.position.key := Position.key_afterAll_le ..
  unfold Reader.scan at read
  simp only at read
  split at read
  · obtain ⟨same, _⟩ := Prod.mk.inj read
    cases same
    exact ⟨skipped, fun other => absurd rfl other⟩
  · rename_i first rest here
    obtain ⟨lexeme, rfl⟩ := Prod.mk.inj read
    split at lexeme
    · cases lexeme
      refine ⟨skipped, fun _ => Position.key_afterAll_lt _ ?_⟩
      rw [here, ne_eq, List.take_eq_nil_iff, not_or]
      exact ⟨(Lexeme.length_ofChars_pos first rest).ne', List.cons_ne_nil _ _⟩
    · cases lexeme

theorem pairwise_scanFrom (fuel : Nat) (r : Reader) :
    (∀ token ∈ (scanFrom source fuel r).tokens, r.position.key ≤ token.position.key) ∧
      (scanFrom source fuel r).tokens.Pairwise fun t u => t.position.key < u.position.key := by
  induction fuel generalizing r with
  | zero => exact ⟨by simp [scanFrom], .nil⟩
  | succ fuel ih =>
    rw [scanFrom]
    rcases read : r.scan source with ⟨fault | token, next⟩
    · exact ⟨by simp, .nil⟩
    · obtain ⟨start, stop⟩ := key_scan read
      simp only
      split
      · exact ⟨by simpa using start, List.pairwise_singleton _ _⟩
      · rename_i other
        obtain ⟨later, ordered⟩ := ih next
        have after : ∀ u ∈ (scanFrom source fuel next).tokens,
            token.position.key < u.position.key :=
          fun u member => (stop other).trans_le (later u member)
        constructor
        · intro u member
          rcases List.mem_cons.mp member with rfl | member
          · exact start
          · exact start.trans (after u member).le
        · exact List.pairwise_cons.mpr ⟨after, ordered⟩

/-- No two tokens of a source stand at one place. -/
theorem index_eq {i j : Nat} {t u : Token} (here : (ofSource source).tokens[i]? = some t)
    (there : (ofSource source).tokens[j]? = some u) (same : t.position = u.position) : i = j := by
  have pairwise : (ofSource source).tokens.Pairwise fun t u => t.position.key < u.position.key :=
    (pairwise_scanFrom _ _).2
  have ordered := List.pairwise_iff_getElem.mp pairwise
  obtain ⟨inside, rfl⟩ := List.getElem?_eq_some_iff.mp here
  obtain ⟨insideToo, rfl⟩ := List.getElem?_eq_some_iff.mp there
  rcases Nat.lt_trichotomy i j with less | equal | more
  · exact absurd (ordered i j inside insideToo less) (by rw [same]; exact lt_irrefl _)
  · exact equal
  · exact absurd (ordered j i insideToo inside more) (by rw [same]; exact lt_irrefl _)

end TokenStream

/-- Whether a fault is reported where a token of the source stands, and where no other does. -/
def Diagnostic.ReportedAt (d : Diagnostic) (source : Source) (index : Nat) : Prop :=
  ∀ i, (∃ t, (TokenStream.ofSource source).tokens[i]? = some t ∧ t.position = d.position) ↔ i = index

theorem Diagnostic.reportedAt {d : Diagnostic} {source : Source} {index : Nat} {t : Token}
    (here : (TokenStream.ofSource source).tokens[index]? = some t)
    (place : d.position = t.position) : d.ReportedAt source index := by
  intro i
  constructor
  · rintro ⟨u, there, same⟩
    exact TokenStream.index_eq there here (same.trans place)
  · rintro rfl
    exact ⟨t, here, place.symm⟩

end Onepass
