import Onepass.Proofs.Frame.Program

/-! Where diagnostics point, whichever way a source is read: token by token, as a stream of tokens, as
a tree or as a program to compile. -/
namespace Onepass

open Syntax (parse)

/-- The diagnostics that reading a source gives. -/
inductive Source.Reports (source : Source) (d : Diagnostic) : Prop where
  | scan (r : Reader) (reached : r.Reached source) (failed : (r.scan source).1 = .error d)
  | tokens (failed : (TokenStream.ofSource source).fault = some d)
  | parse (failed : parse source = .error d)
  | run (platform : Platform)
      (failed : (Compiler.run source platform).result = .error (.diagnostic d))
  | compile (platform : Platform) (failed : compile source platform = .error (.diagnostic d))

/-- Diagnostics point at the right place. Whatever is reported for a source names it, stands at the
start of a token, of the end of input or of a lexeme that cannot be scanned, and shows the raw bytes
of that line of the source without the carriage returns at its end. Lines may be counted in the bytes
or in the characters, also where bytes are no characters. -/
theorem reports_point_at_lexemes (source : Source) :
    (∀ d, source.Reports d → d.PointsInto source) ∧
    source.lines = List.splitOn 10 source.text ∧
    source.chars.splitOn '\n' = source.lines.map Utf8.decode ∧
    1 + source.chars.count '\n' = source.lines.length := by
  refine ⟨fun d reported => ?_, source.lines_eq, source.splitOn_chars, source.count_chars⟩
  cases reported with
  | scan r reached failed => exact reached.pointsInto failed
  | tokens failed => exact TokenStream.pointsInto_of_fault failed
  | parse failed => exact Syntax.pointsInto_of_parse failed
  | run platform failed => exact (Compiler.run_recorded source platform).2.2 d failed
  | compile platform failed =>
    simp only [compile] at failed
    split at failed
    · cases failed
    · rename_i failure stopped
      cases failed
      exact (Compiler.run_recorded source platform).2.2 d stopped

/-- A text with a byte that is no character before a newline, and a name that is not declared on a
line that ends with carriage returns. -/
private def garbled : Source :=
  ⟨"demo", [0x23, 0xC3, 0x0A, 0x23, 0xFF, 0x0A] ++ Bytes.ofString " print x\r\r\nprint 1"⟩

theorem reports_point_at_lexemes_garbled :
    ∃ d, (Compiler.run garbled .linux).result = .error (.diagnostic d) ∧ d.position = ⟨3, 8⟩ ∧
      d.line = " print x" ∧ d.PointsInto garbled ∧ 1 + garbled.chars.count '\n' = 4 := by
  have stopped : (match (Compiler.run garbled .linux).result with
      | .error (.diagnostic d) => decide (d.position = ⟨3, 8⟩ ∧ d.line = " print x")
      | _ => false) = true := by decide +kernel
  match failed : (Compiler.run garbled .linux).result with
  | .error (.diagnostic d) =>
    simp only [failed, decide_eq_true_eq] at stopped
    obtain ⟨points, _, _, lines⟩ := reports_point_at_lexemes garbled
    exact ⟨d, rfl, stopped.1, stopped.2, points d (.run .linux failed), lines⟩
  | .error (.misuse _) | .ok _ =>
    rw [failed] at stopped
    cases stopped

end Onepass
