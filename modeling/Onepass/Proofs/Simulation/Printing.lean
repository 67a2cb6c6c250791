import Onepass.Proofs.Machine.Running
import Onepass.Proofs.Simulation.Reserve

/-! Any text can be written as a literal and printed. The escapes of the literal are read back as the
text, and the program that prints it has neither labels nor jumps. Such a program goes through its
instructions once, so that its run is not cut off, and a sink without a limit takes its output. -/
namespace Onepass

open Assembly (Code Image Layout)
open Machine
open Syntax (Stmt)

namespace Simulation

section

variable {P : Setting} {platform : Platform} {fits : Word → Prop} {ground p q : Pointers}
  {code : Code} {l : Layout} {goal : Ledger → Machine → Prop} {blocks : Ledger} {m : Machine}

/-- A program without labels and jumps goes through its code once, and ends where it leads. -/
theorem runs_straight (leads : Leads P.Watch goal blocks m)
    (here : Poised l (code ++ ending platform) m) (outside : Outside l platform)
    (straight : code.all isStraight = true) (flows : Flows platform fits ground p code q)
    (describes : p.Describes m.registers)
    (halts : ∀ later n, goal later n → n.halted = true) (unlimited : m.sink.room = none)
    (stays : ∀ n, m.Reachable n → n.InStack) {fuel : Nat} (enough : code.instructions < fuel) :
    ∃ later n, goal later n ∧ runWithin fuel m = (⟨n.status, none⟩, n) := by
  induction leads generalizing code p fuel with
  | here reached =>
    have ended := halts _ _ reached
    rw [here.running] at ended
    cases ended
  | spilled left => exact absurd (stays _ .start) left
  | refused _ _ _ _ limited => exact absurd unlimited limited
  | @next _ _ m after moves rest ih =>
    have stepped := moves.stepped
    have free : after.sink.room = none := by
      have kept := room_step unlimited
      rwa [stepped] at kept
    have within (n : Machine) (reachable : after.Reachable n) : n.InStack :=
      stays n (.head stepped reachable)
    obtain ⟨fuel, rfl⟩ := Nat.exists_eq_add_one_of_ne_zero (Nat.ne_zero_of_lt enough)
    rw [runWithin_step moves.running stepped]
    cases flows with
    | nil =>
      obtain ⟨line, fetched⟩ := fetch_ending here
      obtain ⟨back, top, _⟩ := moves.watched.returns (by rw [fetched]; rfl)
      obtain ⟨ended, _⟩ := halted_of_ending here back top stepped
      cases rest with
      | here reached => exact ⟨_, after, reached, runWithin_halted ended fuel⟩
      | spilled left => exact absurd (within _ .start) left
      | refused running =>
        rw [ended] at running
        cases running
      | next moves =>
        have running := moves.running
        rw [ended] at running
        cases running
    | label name => cases straight
    | instruction moves _ permits later =>
      rw [List.all_cons, Bool.and_eq_true] at straight
      rw [Assembly.instructions_instruction] at enough
      obtain ⟨described, _, ⟨there, _⟩ | ⟨_, jumps, _⟩⟩ :=
        here.flow outside describes moves permits stepped
      · exact ih there straight.2 later described free within (by omega)
      · have stays := straight.1
        simp [isStraight, Assembly.Line.instruction, jumps] at stays

end

section

variable {source : Source} {platform : Platform} {tree : List Stmt} {image : Image} {first : Machine}

/-- A program without labels and jumps, whose output is not limited, returns and writes what the
interpreter writes. -/
theorem Loaded.runs_straight (loaded : Loaded source platform tree image {} 0 first)
    (straight : (Generator.program platform tree).1.all isStraight = true)
    (short : (Generator.program platform tree).1.instructions < 1000)
    (fits : Syntax.stackNeed platform (Generator.program platform tree).2.context.length tree ≤
      stackSize)
    {after : Interpreter.State}
    (ran : Interpreter.run (Generator.program platform tree).2.context
      (heapLimit - first.heap.toNat) 1 tree = (.ok (), after)) :
    ∃ n, first.run (platform.symbol "main") = (⟨0, none⟩, n) ∧
      n.registers.esp = memorySize.toUInt32 ∧ n.sink.written = after.output := by
  obtain ⟨l, symbols, labels, valid, start, leads⟩ := loaded.exists_layout
  obtain ⟨w, flows⟩ := flows_main fits
  have charted := loaded.charted valid symbols labels flows
  have here := loaded.poised
  rw [mainCode_eq] at here
  have leads := leads 1
  rw [ran] at leads
  have unlimited : (entered first).sink.room = none := by
    rw [entered, loaded.first_eq]
  have plain : (entering (Generator.program platform tree).2.context.length ++
      ((Generator.program platform tree).1 ++ leavingFrame)).all isStraight = true := by
    rw [List.all_append, List.all_append, straight]
    rfl
  have enough : (entering (Generator.program platform tree).2.context.length ++
      ((Generator.program platform tree).1 ++ leavingFrame)).instructions <
        ((entered first).stepBound - (entered first).steps).toNat := by
    have count : (entering (Generator.program platform tree).2.context.length ++
        ((Generator.program platform tree).1 ++ leavingFrame)).instructions =
          3 + ((Generator.program platform tree).1.instructions + 2) := by
      rw [Assembly.instructions_append, Assembly.instructions_append]
      rfl
    have bound : ((entered first).stepBound - (entered first).steps).toNat = 10000000 := by
      rw [entered, loaded.first_eq]
      rfl
    omega
  have halts (later : Ledger) (n : Machine)
      (reached : Finished (settingOf platform tree l image first) 1 (.ok (), after) later n) :
      n.halted = true := by
    cases reached with
    | returned returned => exact returned.halted
  obtain ⟨_, n, finished, ends⟩ := Simulation.runs_straight leads here charted.outside plain flows
    (.of_esp rfl) halts unlimited (fun n reachable => loaded.stays fits reachable) enough
  cases finished with
  | returned returned _ output =>
    refine ⟨n, ?_, returned.stack, ?_⟩
    · rw [Machine.run, start]
      exact ends.trans (by rw [returned.status])
    · rw [output]
      change first.sink.written ++ _ = _
      rw [loaded.first_eq]
      rfl

end

end Simulation

namespace Source

/-- How a literal writes a character. -/
def escape : Char → List Char
  | '\\' => ['\\', '\\']
  | '"' => ['\\', '"']
  | '\n' => ['\\', 'n']
  | c => [c]

/-- How a literal writes a text. -/
def quote (text : List Char) : List Char := text.flatMap escape

/-- The source that prints a text. -/
def printing (name : Bytes) (text : List Char) : Source :=
  ⟨name, Utf8.encode ("print \"".toList ++ (quote text ++ ['"']))⟩

/-- A literal stands for the text it writes. -/
theorem contents_quote (text : List Char) : Lexeme.Contents (quote text) text := by
  induction text with
  | nil => exact .nil
  | cons c text ih =>
    have whole : quote (c :: text) = escape c ++ quote text := List.flatMap_cons
    rw [whole]
    unfold escape
    split
    · exact .escape .backslash ih
    · exact .escape .quote ih
    · exact .escape .newline ih
    · rename_i backslash quote newline
      exact .plain quote backslash newline ih

open Lexeme in
/-- The source that prints a text is read as such. -/
theorem parse_printing (name : Bytes) (text : List Char) :
    Syntax.parse (printing name text) = .ok [.print (.string (Utf8.encode text))] := by
  have chars : (printing name text).chars = [] ++ ('p' :: ['r', 'i', 'n', 't'] ++
      ([' '] ++ ('"' :: (quote text ++ ['"']) ++ []))) := by
    refine (Utf8.decode_encode _).trans ?_
    rw [List.append_nil]
    rfl
  have contents := contents_quote text
  have letters : ∀ c ∈ ['r', 'i', 'n', 't'], (isLetter c || c.isDigit) = true :=
    List.all_eq_true.mp rfl
  have partition : ∃ p q last, Partition [] (printing name text).chars
      ([⟨.keyword, Utf8.encode ['p', 'r', 'i', 'n', 't'], 0, p⟩, ⟨.string, Utf8.encode text, 0, q⟩] ++
        [⟨.eof, [], 0, last⟩]) := by
    rw [chars]
    exact ⟨_, _, _, .token .nil (.keyword rfl letters (by decide)) (fun number => by cases number)
      (isLongest_word rfl letters fun c found => by cases found; rfl) rfl
      (.token (.blank rfl .nil) (.string contents) (fun number => by cases number)
        (isLongest_string contents) rfl (.done .nil))⟩
  obtain ⟨p, q, last, partition⟩ := partition
  refine Syntax.parse_of_partition partition rfl (fun token member ends => ?_) ⟨_, .cons (.print rfl
    (.operand (.operand (.operand (.plain (.string rfl)))))) .nil⟩
  simp only [List.mem_cons, List.not_mem_nil, or_false] at member
  rcases member with rfl | rfl <;> cases ends

/-- A literal takes at most twice as many bytes as its text. -/
theorem length_quote_le (text : List Char) :
    (Utf8.encode (quote text)).length ≤ 2 * (Utf8.encode text).length := by
  induction text with
  | nil => exact Nat.le_refl _
  | cons c text ih =>
    have width : (Utf8.encode (escape c)).length ≤ 2 * (Utf8.encodeChar c).length := by
      unfold escape
      split
      · decide
      · decide
      · decide
      · simp only [Utf8.encode, List.flatMap_cons, List.flatMap_nil, List.append_nil]
        omega
    have whole : Utf8.encode (quote (c :: text)) =
        Utf8.encode (escape c) ++ Utf8.encode (quote text) := by
      rw [quote, List.flatMap_cons]
      exact List.flatMap_append
    have bytes : Utf8.encode (c :: text) = Utf8.encodeChar c ++ Utf8.encode text :=
      List.flatMap_cons
    rw [whole, bytes, List.length_append, List.length_append]
    omega

/-- A literal is not too long when the data of its program fits. -/
theorem length_printing_le (name : Bytes) {text : List Char} {platform : Platform} {image : Image}
    (assembled : Assembly.assemble (Codegen.Builder.text
      ((Generator.program platform [.print (.string (Utf8.encode text))]).2.builder platform
        (Generator.program platform [.print (.string (Utf8.encode text))]).1)) = .ok image)
    (fits : image.Fits) : (printing name text).text.length ≤ wordLimit := by
  obtain ⟨l, _, _, laid, _⟩ := Generator.passes_program assembled
  have found : (Generator.program platform
      [.print (.string (Utf8.encode text))]).2.strings[0]? = some (Utf8.encode text) := rfl
  obtain ⟨start, _, _, _, stands⟩ := laid.place (Generator.stringArea_mem found)
  have size : (Generator.stringArea (Utf8.encode text) 0).bytes.length =
      4 + ((Utf8.encode text).length + 1) := by
    simp only [Generator.stringArea, Word.bytes, List.length_append, List.length_cons,
      List.length_nil]
  obtain ⟨_, bound⟩ := Machine.toNat_start fits stands (by omega)
  have whole : (printing name text).text =
      Utf8.encode "print \"".toList ++ (Utf8.encode (quote text) ++ Utf8.encode ['"']) := by
    refine (List.flatMap_append ..).trans (congrArg _ (List.flatMap_append ..))
  have opening : (Utf8.encode "print \"".toList).length = 7 := by decide
  have closing : (Utf8.encode ['"']).length = 1 := by decide
  have room : Assembly.dataBase.toNat + image.data.size ≤ heapLimit := fits
  have limit : heapLimit = 0xF0000 := rfl
  have twice := length_quote_le text
  rw [whole, List.length_append, List.length_append, opening, closing, wordLimit]
  omega

end Source

namespace Compiler

/-- Any text without zero characters can be written as a literal and printed: the source that prints
it is compiled, the result assembles, and when its data fits, then its program is loaded, returns, gives
back its stack and writes the bytes of the text and a newline. -/
theorem compile_prints (name : Bytes) (text : List Char) (platform : Platform)
    (printable : ∀ c ∈ text, c ≠ '\x00') :
    ∃ code image, compile (Source.printing name text) platform = .ok code ∧
      Assembly.assemble code = .ok image ∧
      (image.Fits → ∃ first n, Machine.load {} image = .ok first ∧
        first.run (platform.symbol "main") = (⟨0, none⟩, n) ∧
        n.registers.esp = first.registers.esp ∧
        n.sink.written = Utf8.encode text ++ [10]) := by
  have parsed := Source.parse_printing name text
  have typed : Syntax.WellTyped [.print (.string (Utf8.encode text))] [] :=
    .next (.print (.inr rfl) (.string _)) .done
  obtain ⟨code, image, compiled, assembled, rfl, _⟩ :=
    compile_of_typed platform parsed typed
  refine ⟨_, image, compiled, assembled, fun fits => ?_⟩
  obtain ⟨first, loads, _⟩ := Machine.load_of_fits fits {}
  have limit := Source.length_printing_le name assembled fits
  have loaded : Simulation.Loaded (Source.printing name text) platform _ image {} 0 first :=
    ⟨limit, parsed, typed, assembled, loads⟩
  obtain ⟨n, run, stack, written⟩ := loaded.runs_straight (by cases platform <;> rfl)
    (by cases platform <;> exact Nat.le_of_ble_eq_true rfl)
    (by cases platform <;> exact Nat.le_of_ble_eq_true rfl) rfl
  refine ⟨first, n, loads, run, ?_, ?_⟩
  · rw [stack, loaded.first_eq]
  · have shown : (Utf8.encode text).takeWhile (· ≠ 0) = Utf8.encode text :=
      List.takeWhile_eq_self_iff.mpr fun b member =>
        decide_eq_true (Utf8.ne_zero_of_mem_encode printable b member)
    exact written.trans (congrArg (· ++ [10]) shown)

/-- A text with everything that a literal or a format could take for something else. -/
private def spelled : List Char :=
  ['%', 'd', '\\', 'n', ' ', '"', '#', '"', '\r', '\t', '\n', '%', 's', 'é', ' ']

theorem compile_prints_spelled :
    ∃ code image first n, compile (Source.printing [] spelled) .darwin = .ok code ∧
      Assembly.assemble code = .ok image ∧ image.Fits ∧ Machine.load {} image = .ok first ∧
      first.run "_main" = (⟨0, none⟩, n) ∧ n.registers.esp = first.registers.esp ∧
      n.sink.written = Utf8.encode spelled ++ [10] := by
  have computed : ((compile (Source.printing [] spelled) .darwin).toOption.bind fun code =>
      (Assembly.assemble code).toOption.map fun image => decide image.Fits) = some true := by
    decide +kernel
  obtain ⟨code, image, compiled, assembled, prints⟩ :=
    compile_prints [] spelled .darwin (by simp [spelled])
  rw [compiled] at computed
  dsimp only [Except.toOption, Option.bind] at computed
  rw [assembled] at computed
  have fits : image.Fits := of_decide_eq_true (Option.some.inj computed)
  obtain ⟨first, n, loads, run, stack, written⟩ := prints fits
  exact ⟨code, image, first, n, compiled, assembled, fits, loads, run, stack, written⟩

end Compiler

end Onepass
