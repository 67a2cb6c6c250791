import Onepass.Proofs.Acceptance
import Onepass.Proofs.Simulation.Discipline

/-! The reserved stack. The code of a tree needs an amount of stack that can be read off the tree,
and a program whose frame, operands and calls need no more than is reserved stays inside in every
reachable state. Nothing else keeps a program there: a source that declares enough variables is
compiled to a program that goes on below the reserved stack. -/
namespace Onepass

open Assembly (Code Image Layout Placed)
open Codegen (boundsLabel localLabel)
open Machine
open Syntax (Stmt)

namespace Syntax

/-- The bytes of the stack that a program with some variables needs: for the return address and the
base of the caller, for the frame, and for operands and calls. -/
def stackNeed (platform : Platform) (locals : Nat) (tree : List Stmt) : Nat :=
  8 + wordSize * locals + Stmt.allNeed platform tree

end Syntax

theorem Machine.reachable_of_proceed {count : Nat} {m n : Machine}
    (done : m.proceed count = (.ok (), n)) : m.Reachable n := by
  induction count generalizing m with
  | zero =>
    cases done
    exact .start
  | succ count ih =>
    rw [proceed] at done
    cases stepped : m.step with
    | mk result next =>
      rw [stepped] at done
      cases result with
      | error stop => cases done
      | ok _ => exact .head stepped (ih done)

namespace Simulation

/-- Whether an address lies in the reserved stack, or at its top. -/
def InReserve (w : Word) : Prop := heapLimit ≤ w.toNat ∧ w.toNat ≤ memorySize

section

variable {platform : Platform} {fits : Word → Prop} {ground p q r : Pointers} {code rest : Code}
  {l : Layout} {m n : Machine}

/-- Code that is entered at a local label. -/
theorem Flows.at_label (flows : Flows platform fits ground p code q) {text : Array Instr}
    {start index : Nat} {name : Bytes} (placed : Placed l text start (code ++ rest))
    (member : (name, index) ∈ code.places start) :
    ∃ later, Flows platform fits ground ground later q ∧ Placed l text index (later ++ rest) := by
  induction flows generalizing start with
  | nil p => cases member
  | @label p q code other level later ih =>
    rcases List.mem_cons.mp member with here | inner
    · cases here
      exact ⟨code, later, (Assembly.placed_label.mp placed).2⟩
    · exact ih (Assembly.placed_label.mp placed).2 inner
  | instruction _ _ _ _ ih => exact ih (Assembly.placed_instruction.mp placed).2 member

/-- What is known about registers when less is known about `%edi`. -/
theorem describes_ground {registers : Registers} (describes : p.Describes registers)
    (level : { p with edi := none } = ground) : ground.Describes registers := by
  subst level
  exact { esp := describes.esp, ebp := describes.ebp, edi known := by cases known }

/-- The code that ends a program, after the frame was left. -/
def ending (platform : Platform) : Code :=
  .instruction "ret" [] :: Codegen.Builder.boundsRoutine platform

/-- The call that ends a program whose bounds check has failed. -/
def aborting (platform : Platform) : Code :=
  [.instruction "call" [Codegen.destination (platform.symbol "abort")]]

/-- Where a program is that has not left its code: on its way through `main`, in the routine for
failed bounds checks, or at its end. -/
inductive Underway (platform : Platform) (l : Layout) (ground q : Pointers) (m : Machine) : Prop where
  | flows {code : Code} {p : Pointers} (here : Poised l (code ++ ending platform) m)
      (flows : Flows platform InReserve ground p code q) (describes : p.Describes m.registers)
  | failing (here : Poised l ((Codegen.Builder.boundsRoutine platform).drop 1) m)
  | aborts (here : Poised l (aborting platform) m)
  | halted (ended : m.halted = true)

/-- What is known about the places that a program can jump to. -/
structure Charted (platform : Platform) (l : Layout) (ground q : Pointers) (text : Array Instr) :
    Prop where
  outside : Outside l platform
  abort : l.label? (platform.symbol "abort") = none
  label : ∀ {k index : Nat}, l.label? (localLabel k) = some index →
    ∃ code, Flows platform InReserve ground ground code q ∧
      Placed l text index (code ++ ending platform)
  bounds : ∃ index, l.label? boundsLabel = some index ∧
    Placed l text index ((Codegen.Builder.boundsRoutine platform).drop 1)

/-- A program does not go on after the call that aborts it. -/
theorem error_of_aborting (here : Poised l (aborting platform) m)
    (outside : l.label? (platform.symbol "abort") = none) : m.step ≠ (.ok (), n) := by
  intro stepped
  have target : l.target "call" (Codegen.destination (platform.symbol "abort")) =
      .ok (.target (platform.symbol "abort") (-1)) := by
    simp only [Layout.target, Codegen.destination, outside]
    rfl
  obtain ⟨line, fetched⟩ := here.fetched (instruction_branch rfl rfl rfl target)
  have done := perform_of_step here.running fetched stepped
  have opened : perform (Machine.execute ⟨.call, [.target (platform.symbol "abort") (-1)], line⟩)
      m.next = perform (Routine.call (platform.symbol "abort")) m.next := rfl
  have known : Routine.ofSymbol? (platform.symbol "abort") = some .abort :=
    routine_symbol platform .abort
  rw [opened, Routine.call, known] at done
  cases done

/-- Rounding down to a multiple of 16 stays inside the stack. -/
theorem inReserve_align {w : Word} (inside : InReserve w) :
    InReserve (w &&& Word.ofInt (Codegen.wrap (-16))) := by
  have mask : Word.ofInt (Codegen.wrap (-16)) = ~~~15 := by decide
  have floor : heapLimit = 0xF0000 := rfl
  have place : (w &&& ~~~15).toNat = w.toNat / 16 * 16 := Word.toNat_and_not 4 rfl w
  obtain ⟨low, high⟩ := inside
  rw [mask, InReserve, place]
  omega

theorem fetch_ending (here : Poised l (ending platform) m) :
    ∃ line, m.fetch? = some ⟨.ret, [], line⟩ :=
  here.fetched fun _ => rfl

/-- A return to the sentinel ends the program. -/
theorem halted_of_ending (here : Poised l (ending platform) m)
    (back : m.memory.readWord m.registers.esp = returnSentinel)
    (top : m.registers.esp = (memorySize - 4).toUInt32) (stepped : m.step = (.ok (), n)) :
    n.halted = true ∧ n.registers.esp = memorySize.toUInt32 := by
  obtain ⟨line, fetched⟩ := fetch_ending here
  have fine : accessible m.next.registers.esp 4 = true := by
    rw [next_registers, top]
    decide
  rw [step_eq here.running fetched, execute_ret fine back] at stepped
  cases stepped
  refine ⟨rfl, ?_⟩
  change m.registers.esp + 4 = _
  rw [top]
  decide

section

variable (charted : Charted platform l ground q m.text) (stepped : m.step = (.ok (), n))

include charted stepped

/-- A step on the way through `main`. -/
theorem Underway.step_flows (here : Poised l (code ++ ending platform) m)
    (flows : Flows platform InReserve ground p code q) (describes : p.Describes m.registers)
    (returns : m.fetch?.map Instr.mnemonic = some .ret →
      m.halted = true ∨ m.memory.readWord m.registers.esp = returnSentinel ∧
        m.registers.esp = (memorySize - 4).toUInt32) :
    Underway platform l ground q n ∧ n.InStack := by
  induction flows with
  | nil p =>
    obtain ⟨line, fetched⟩ := fetch_ending here
    obtain ⟨back, top⟩ := (returns (by rw [fetched]; rfl)).resolve_left (by simp [here.running])
    obtain ⟨ended, full⟩ := halted_of_ending here back top stepped
    refine ⟨.halted ended, ?_⟩
    change InReserve n.registers.esp
    rw [full]
    exact ⟨by decide, by decide⟩
  | label name level later ih =>
    obtain ⟨running, index, pc, placed⟩ := here
    exact ih charted ⟨running, index, pc, (Assembly.placed_label.mp placed).2⟩
      (describes_ground describes level)
  | @instruction p r q mnemonic operands rest moves inside permits later ih =>
    obtain ⟨described, text, ⟨there, _⟩ | ⟨running, _, name, index, label, pc, goes⟩⟩ :=
      here.flow charted.outside describes moves permits stepped
    · refine ⟨.flows there later described, ?_⟩
      change InReserve n.registers.esp
      rw [described.esp]
      exact inside
    · have stays : n.InStack := by
        change InReserve n.registers.esp
        rw [described.esp]
        exact inside
      refine ⟨?_, stays⟩
      rcases goes with rfl | ⟨⟨k, rfl⟩, level⟩
      · obtain ⟨place, known, placed⟩ := charted.bounds
        obtain rfl := Option.some.inj (known.symm.trans label)
        exact .failing ⟨running, place, pc, text ▸ placed⟩
      · obtain ⟨code, flows, placed⟩ := charted.label label
        exact .flows ⟨running, index, pc, text ▸ placed⟩ flows (describes_ground described level)

/-- What a step of a program preserves that stays inside its stack. -/
theorem Underway.step (here : Underway platform l ground q m) (inside : m.InStack)
    (returns : m.fetch?.map Instr.mnemonic = some .ret →
      m.halted = true ∨ m.memory.readWord m.registers.esp = returnSentinel ∧
        m.registers.esp = (memorySize - 4).toUInt32) :
    Underway platform l ground q n ∧ n.InStack := by
  cases here with
  | flows here flows describes => exact step_flows charted stepped here flows describes returns
  | failing here =>
    by_cases aligns : platform.alignsCalls = true
    · have split : (Codegen.Builder.boundsRoutine platform).drop 1 =
          .instruction "andl" [Codegen.constant (-16), Codegen.esp] :: aborting platform := by
        rw [Codegen.Builder.boundsRoutine, if_pos aligns]
        rfl
      rw [split] at here
      have describes : Pointers.Describes ⟨m.registers.esp, none, none⟩ m.registers := .of_esp rfl
      have permits : Permits platform ground ⟨m.registers.esp, none, none⟩
          ⟨"andl", [Codegen.constant (-16), Codegen.esp]⟩ := permits_plain rfl
      obtain ⟨described, _, ⟨there, _⟩ | ⟨_, jumps, _⟩⟩ :=
        here.flow charted.outside describes rfl permits stepped
      · refine ⟨.aborts there, ?_⟩
        change InReserve n.registers.esp
        rw [described.esp]
        exact inReserve_align inside
      · cases jumps
    · have split : (Codegen.Builder.boundsRoutine platform).drop 1 = aborting platform := by
        rw [Codegen.Builder.boundsRoutine, if_neg aligns]
        rfl
      rw [split] at here
      exact absurd stepped (error_of_aborting here charted.abort)
  | aborts here => exact absurd stepped (error_of_aborting here charted.abort)
  | halted ended =>
    rw [step_halted ended] at stepped
    cases stepped
    exact ⟨.halted ended, inside⟩

end

end

/-- The pointers of a program that has set up its frame. -/
def grounded (locals : Nat) : Pointers :=
  ⟨frameBase - (wordSize * locals).toUInt32, some frameBase, none⟩

/-- The code that leaves the frame. -/
def leavingFrame : Code :=
  [.instruction "movl" [Codegen.constant 0, Codegen.eax], .instruction "leave" []]

section

variable {platform : Platform} {tree : List Stmt} {locals need : Nat}

/-- Addresses below the frame. -/
theorem room_grounded (fits : 8 + wordSize * locals + need ≤ stackSize) :
    Room InReserve need (grounded locals) := by
  intro d bound
  simp only [wordSize, stackSize] at fits
  have base : frameBase.toNat = 0x100000 - 8 := rfl
  have floor : heapLimit = 0xF0000 := rfl
  have ceiling : memorySize = 0x100000 := rfl
  have frame : (wordSize * locals).toUInt32.toNat = 4 * locals :=
    Word.toNat_natCast (by rw [wordSize]; omega)
  have depth : d.toUInt32.toNat = d := Word.toNat_natCast (by omega)
  have place : (frameBase - (wordSize * locals).toUInt32 - d.toUInt32).toNat =
      0x100000 - 8 - 4 * locals - d := by
    rw [UInt32.toNat_sub, UInt32.toNat_sub, base, frame, depth]
    omega
  rw [InReserve, grounded, place]
  omega

/-- What `main` makes of the pointers, up to its return. -/
theorem flows_main (fits : Syntax.stackNeed platform locals tree ≤ stackSize) :
    ∃ w, Flows platform InReserve (grounded locals) ⟨(memorySize - 4).toUInt32, none, none⟩
      (entering locals ++ ((Generator.program platform tree).1 ++ leavingFrame))
      ⟨(memorySize - 4).toUInt32, none, w⟩ := by
  have room : Room InReserve (Stmt.allNeed platform tree) (grounded locals) := room_grounded fits
  have inside : InReserve frameBase := ⟨by decide, by decide⟩
  have top : InReserve (memorySize - 4).toUInt32 := ⟨by decide, by decide⟩
  have enters : Flows platform InReserve (grounded locals) ⟨(memorySize - 4).toUInt32, none, none⟩
      (entering locals) (grounded locals) :=
    .instruction rfl inside (permits_plain rfl) (.instruction rfl inside (permits_plain rfl)
      (.instruction (after_sub ⟨frameBase, some frameBase, none⟩ _) room.here (permits_plain rfl)
        (.nil _)))
  obtain ⟨w, body⟩ := (grounded_statements rfl tree {}).flows room none
  refine ⟨w, enters.append (body.append ?_)⟩
  exact .instruction rfl room.here (permits_plain rfl)
    (.instruction rfl top (permits_plain rfl) (.nil _))

end

section

variable {source : Source} {platform : Platform} {tree : List Stmt} {image : Image}
  {sink : Sink} {maxSteps : Int} {first m n : Machine} {l : Layout}

theorem mainCode_eq (platform : Platform) (tree : List Stmt) :
    mainCode platform tree =
      (entering (Generator.program platform tree).2.context.length ++
        ((Generator.program platform tree).1 ++ leavingFrame)) ++ ending platform := by
  simp [mainCode, leaving, leavingFrame, ending]

/-- The text of a loaded program, with the names of its image. -/
theorem Loaded.placed (loaded : Loaded source platform tree image sink maxSteps first) :
    Placed image.layout image.text 0 (mainCode platform tree) := by
  obtain ⟨l, symbols, labels, _, placed⟩ := Generator.passes_program loaded.assembled
  rw [main_eq, Assembly.placed_label] at placed
  exact placed.2.names symbols.symm labels.symm

theorem Loaded.charted (loaded : Loaded source platform tree image sink maxSteps first)
    (valid : (settingOf platform tree l image first).Valid) (symbols : image.symbols = l.symbols)
    (labels : image.labels = l.labels) {q : Pointers}
    (flows : Flows platform InReserve (grounded (Generator.program platform tree).2.context.length)
      ⟨(memorySize - 4).toUInt32, none, none⟩
      (entering (Generator.program platform tree).2.context.length ++
        ((Generator.program platform tree).1 ++ leavingFrame)) q) :
    Charted platform image.layout (grounded (Generator.program platform tree).2.context.length) q
      image.text where
  outside := outside_of_valid valid labels
  abort := by
    have unknown : l.labels.lookup (platform.symbol "abort") = none :=
      valid.routine Routine.abort.name (by simp)
    rwa [← labels] at unknown
  label {k index} known := by
    have placed := loaded.placed
    rw [mainCode_eq] at placed
    have member : (localLabel k, index) ∈ Code.places 0
        (entering (Generator.program platform tree).2.context.length ++
          ((Generator.program platform tree).1 ++ leavingFrame)) := by
      rw [← List.append_assoc, Assembly.places_append]
      exact List.mem_append_left _
        (mem_places (l := image.layout) (Generator.labels_program loaded.assembled) known)
    exact flows.at_label placed member
  bounds := by
    obtain ⟨index, known, placed, _⟩ := valid.bounds
    have known : l.labels.lookup boundsLabel = some index := known
    rw [← labels] at known
    exact ⟨index, known, placed.names symbols.symm labels.symm⟩

theorem Loaded.poised (loaded : Loaded source platform tree image sink maxSteps first) :
    Poised image.layout (mainCode platform tree) (entered first) := by
  refine ⟨?_, 0, rfl, ?_⟩
  · rw [loaded.first_eq]
    rfl
  · have text : (entered first).text = image.text := by
      rw [loaded.first_eq]
      rfl
    rw [text]
    exact loaded.placed

/-- A program that needs no more than the reserved stack stays inside it. -/
theorem Loaded.stays (loaded : Loaded source platform tree image sink maxSteps first)
    (fits : Syntax.stackNeed platform (Generator.program platform tree).2.context.length tree ≤
      stackSize)
    (reachable : (entered first).Reachable m) : m.InStack := by
  obtain ⟨l, symbols, labels, valid, _, leads⟩ := loaded.exists_layout
  obtain ⟨w, flows⟩ := flows_main fits
  have charted := loaded.charted valid symbols labels flows
  have whole : ∃ blocks, Reaches [] (entered first) blocks m ∧ Underway platform image.layout
      (grounded (Generator.program platform tree).2.context.length)
      ⟨(memorySize - 4).toUInt32, none, w⟩ m := by
    induction reachable with
    | start =>
      have inside : (entered first).InStack := by
        change InReserve (memorySize - 4).toUInt32
        exact ⟨by decide, by decide⟩
      have here := loaded.poised
      rw [mainCode_eq] at here
      exact ⟨[], .start inside, .flows here flows (.of_esp rfl)⟩
    | @step middle after _ stepped ih =>
      obtain ⟨blocks, reaches, underway⟩ := ih
      have text : middle.text = image.text := by
        rw [text_of_reaches reaches, entered, loaded.first_eq]
      have returns (found : middle.fetch?.map Instr.mnemonic = some .ret) :
          middle.halted = true ∨ middle.memory.readWord middle.registers.esp = returnSentinel ∧
            middle.registers.esp = (memorySize - 4).toUInt32 := by
        rcases watch_of_reaches leads reaches with ⟨_, watched⟩ | ⟨returned, _⟩
        · obtain ⟨back, top, _⟩ := watched.returns found
          exact .inr ⟨back, top⟩
        · exact .inl returned.halted
      rw [← text] at charted
      obtain ⟨later, stays⟩ := underway.step charted stepped reaches.inside returns
      exact ⟨_, .step reaches stepped stays, later⟩
  obtain ⟨_, reaches, _⟩ := whole
  exact reaches.inside

/-- The frame of a program is set up without a check. -/
theorem Loaded.frame (loaded : Loaded source platform tree image sink maxSteps first) :
    ∃ n, (entered first).proceed 3 = (.ok (), n) ∧ n.registers.esp =
      (grounded (Generator.program platform tree).2.context.length).esp := by
  have start : Passed image.layout (entered first) 0
      (entering (Generator.program platform tree).2.context.length ++ _) _ _ _ (entered first) :=
    loaded.poised.start
  have top : (entered first).registers.esp - 4 = frameBase := by
    change (memorySize - 4).toUInt32 - 4 = frameBase
    decide
  have fine : accessible ((entered first).next.registers.esp - 4) 4 = true := by
    rw [next_registers, top]
    decide
  obtain ⟨o, pushed⟩ := start.execute (instruction_one rfl (by decide) rfl rfl) fun line =>
    execute_pushl read_register fine
  obtain ⟨p, saved⟩ := pushed.execute (instruction_two rfl rfl rfl rfl rfl) fun line =>
    execute_movl read_register write_register
  obtain ⟨n, framed⟩ := saved.execute (instruction_two rfl rfl rfl rfl rfl) fun line =>
    execute_arithmetic read_immediate read_register write_register
  have first : o.registers.esp = frameBase := by
    rw [pushed.registers]
    exact top
  have second : p.registers.esp = frameBase := by
    rw [saved.registers]
    exact first
  have size (count : Nat) : (Int32.ofInt (Codegen.wrap count)).toUInt32 = count.toUInt32 :=
    (ofInt_wrap count).trans (Word.ofInt_natCast count)
  refine ⟨n, framed.proceed_eq, ?_⟩
  rw [framed.registers, grounded, ← size, ← second]
  rfl

/-- A frame that does not fit leaves the stack, even if the subtraction wraps. -/
theorem Loaded.spills (loaded : Loaded source platform tree image sink maxSteps first)
    (large : stackSize < 8 + wordSize * (Generator.program platform tree).2.context.length) :
    ∃ n, (entered first).proceed 3 = (.ok (), n) ∧ ¬ n.InStack := by
  obtain ⟨n, proceeds, esp⟩ := loaded.frame
  refine ⟨n, proceeds, fun inside => ?_⟩
  have few := Syntax.length_locals_le loaded.parsed loaded.typed
  have limit := loaded.limit
  generalize (Generator.program platform tree).2.context.length = locals at *
  simp only [wordSize, stackSize, Source.wordLimit] at *
  have base : frameBase.toNat = 0x100000 - 8 := rfl
  have floor : heapLimit = 0xF0000 := rfl
  have ceiling : memorySize = 0x100000 := rfl
  have frame : (4 * locals).toUInt32.toNat = 4 * locals := Word.toNat_natCast (by omega)
  obtain ⟨low, high⟩ := inside
  rw [esp, grounded, UInt32.toNat_sub, base, wordSize, frame] at low high
  omega

end

end Simulation

namespace Compiler

/-- A program that adds three numbers. -/
private def summing : Source := ⟨[], "x = 1 print x + (2 + x)"⟩

end Compiler

namespace Declarations

open Syntax (WellTyped parse)

/-- A text that declares variables, each on a line of its own. -/
def text (names : List (List Char)) : List Char :=
  names.flatMap fun name => '\n' :: (name ++ ['=', '0'])

/-- The variable with a number. -/
def numbered (i : Nat) : List Char := 'v' :: Nat.toDigits 10 i

/-- A source that declares a number of variables. -/
def source (count : Nat) : Source :=
  ⟨[], Utf8.encode (text ((List.range count).map numbered))⟩

/-- Whether a word is a name. -/
structure IsName (name : List Char) : Prop where
  word : ∃ first tail, name = first :: tail ∧ Lexeme.isLetter first = true ∧
    ∀ c ∈ tail, (Lexeme.isLetter c || c.isDigit) = true
  free : Token.keywords.contains (Utf8.encode name) = false

open Lexeme Syntax.Grammar

private theorem not_digit_of_head (names : List (List Char)) :
    ∀ c, (text names).head? = some c → c.isDigit = false := by
  intro c found
  cases names with
  | nil => cases found
  | cons name rest =>
    cases found
    rfl

/-- Declarations are read as such. -/
theorem partition_text (names : List (List Char)) (words : ∀ name ∈ names, IsName name)
    (before : List Char) :
    ∃ tokens last, Partition before (text names) (tokens ++ [last]) ∧ last.kind = .eof ∧
      (∀ token ∈ tokens, token.kind ≠ .eof) ∧
      ∀ known : List Bytes, names.Nodup → (∀ name ∈ names, Utf8.encode name ∉ known) →
        ∃ later, Statements known tokens
          (names.map fun name => .declare (Utf8.encode name) (.int 0)) later := by
  induction names generalizing before with
  | nil =>
    exact ⟨[], ⟨.eof, [], 0, _⟩, .done .nil, rfl, fun _ member => (by cases member),
      fun known _ _ => ⟨known, .nil⟩⟩
  | cons name names ih =>
    obtain ⟨⟨first, tail, rfl, letter, all⟩, free⟩ := words name (List.mem_cons_self ..)
    obtain ⟨tokens, last, partition, eof, others, derived⟩ :=
      ih (fun name member => words name (List.mem_cons_of_mem _ member))
        (((before ++ (['\n'] ++ (first :: tail))) ++ ([] ++ ['='])) ++ ([] ++ ['0']))
    refine ⟨⟨.ident, Utf8.encode (first :: tail), 0, place (before ++ ['\n'])⟩ ::
      ⟨.op, Utf8.encode ['='], 0, place ((before ++ (['\n'] ++ (first :: tail))) ++ [])⟩ ::
      ⟨.int, Utf8.encode ['0'], Int32.ofNat (decimalValue ['0']),
        place (((before ++ (['\n'] ++ (first :: tail))) ++ ([] ++ ['='])) ++ [])⟩ :: tokens, last,
      ?_, eof, ?_, fun known distinct fresh => ?_⟩
    · have zero : Partition _ ([] ++ (['0'] ++ text names)) _ :=
        .token .nil (.int (List.cons_ne_nil _ _) (by simp)) (fun _ => by decide)
          (isLongest_number rfl (fun _ member => by cases member) (not_digit_of_head names)) rfl
          partition
      have equals : Partition _ ([] ++ (['='] ++ ('0' :: text names))) _ :=
        .token .nil (.op (by decide)) (fun number => by cases number)
          (isLongest_of_length rfl (by rfl)) rfl zero
      have whole : text ((first :: tail) :: names) =
          ['\n'] ++ ((first :: tail) ++ ('=' :: '0' :: text names)) := by
        simp [text]
      rw [whole]
      exact .token (.blank rfl .nil) (.ident letter all free) (fun number => by cases number)
        (isLongest_word letter all fun c found => by cases found; rfl) rfl equals
    · intro token member ends
      simp only [List.mem_cons] at member
      rcases member with rfl | rfl | rfl | later
      · cases ends
      · cases ends
      · cases ends
      · exact others token later ends
    · obtain ⟨new, distinct⟩ := List.nodup_cons.mp distinct
      obtain ⟨later, derived⟩ := derived (Utf8.encode (first :: tail) :: known) distinct
        fun name member known => by
          rcases List.mem_cons.mp known with same | old
          · have same : name = first :: tail := by
              rw [← Utf8.decode_encode name, same, Utf8.decode_encode]
            exact new (same ▸ member)
          · exact fresh name (List.mem_cons_of_mem _ member) old
      have computed (p : Position) : Phrase known .expression [⟨.int, Utf8.encode ['0'],
          Int32.ofNat (decimalValue ['0']), p⟩] (.int 0) :=
        .operand (.operand (.operand (.plain (.int rfl))))
      exact ⟨later, .cons (.declare rfl (fresh _ (List.mem_cons_self ..)) rfl (computed _)) derived⟩

/-- Declarations of different names are well typed. -/
theorem typed_tree (names : List (List Char)) (distinct : names.Nodup)
    (context : Syntax.Context)
    (fresh : ∀ name ∈ names, context.lookup (Utf8.encode name) = none) :
    Syntax.Typed context
      (.block (names.map fun name => .declare (Utf8.encode name) (.int 0)))
      (context ++ names.map fun name => (Utf8.encode name, .int)) := by
  induction names generalizing context with
  | nil =>
    rw [List.map_nil, List.map_nil, List.append_nil]
    exact .done
  | cons name names ih =>
    obtain ⟨new, distinct⟩ := List.nodup_cons.mp distinct
    have later := ih distinct (context ++ [(Utf8.encode name, .int)]) fun other member => by
      have apart : Utf8.encode other ≠ Utf8.encode name := by
        intro same
        have same : other = name := by
          rw [← Utf8.decode_encode other, same, Utf8.decode_encode]
        exact new (same ▸ member)
      rw [List.lookup_append, fresh other (List.mem_cons_of_mem _ member)]
      simp [List.lookup, beq_eq_false_iff_ne.mpr apart]
    rw [List.append_assoc] at later
    exact .next (.declare (fresh name (List.mem_cons_self ..)) (.int 0)) later

theorem isName_numbered (i : Nat) : IsName (numbered i) where
  word := ⟨'v', _, rfl, rfl, fun c member => by
    simp [Nat.isDigit_of_mem_toDigits (by decide) (by decide) member]⟩
  free := by
    have other : ∀ word ∈ Token.keywords, word.head? ≠ some 118 := by decide
    refine Bool.eq_false_iff.mpr fun found => ?_
    exact other _ (List.contains_iff_mem.mp found) rfl

theorem numbered_injective {i j : Nat} (same : numbered i = numbered j) : i = j := by
  have digits := (List.cons.inj same).2
  rw [← Nat.ofDigitChars_toDigits (show 1 < 10 by decide) (le_refl 10) (n := i), digits,
    Nat.ofDigitChars_toDigits (by decide) (by decide)]

/-- A source that declares variables has a well typed tree. -/
theorem parse_source (count : Nat) :
    ∃ tree locals, parse (source count) = .ok tree ∧ WellTyped tree locals ∧
      locals.length = count ∧ Stmt.allLiterals tree = [] := by
  have distinct : ((List.range count).map numbered).Nodup :=
    List.Nodup.map (fun _ _ => numbered_injective) List.nodup_range
  have names : ∀ name ∈ (List.range count).map numbered, IsName name := by
    intro name member
    obtain ⟨i, _, rfl⟩ := List.mem_map.mp member
    exact isName_numbered i
  obtain ⟨tokens, last, partition, eof, others, derived⟩ := partition_text _ names []
  have chars : (source count).chars = text ((List.range count).map numbered) :=
    Utf8.decode_encode _
  rw [← chars] at partition
  have parsed := Syntax.parse_of_partition partition eof others
    (derived [] distinct fun _ _ => List.not_mem_nil)
  refine ⟨_, _, parsed, typed_tree _ distinct [] fun _ _ => rfl, by simp, ?_⟩
  generalize (List.range count).map numbered = names
  induction names with
  | nil => rfl
  | cons name names ih => exact ih

theorem length_text_le {names : List (List Char)} {width : Nat}
    (narrow : ∀ name ∈ names, name.length ≤ width) :
    (text names).length ≤ names.length * (width + 3) := by
  induction names with
  | nil => exact Nat.zero_le _
  | cons name names ih =>
    have head := narrow name (List.mem_cons_self ..)
    have rest := ih fun name member => narrow name (List.mem_cons_of_mem _ member)
    have whole : text (name :: names) = '\n' :: (name ++ ['=', '0']) ++ text names :=
      List.flatMap_cons
    have count : (name :: names).length * (width + 3) = names.length * (width + 3) + (width + 3) :=
      Nat.succ_mul ..
    rw [whole, count]
    simp only [List.length_append, List.length_cons, List.length_nil]
    omega

theorem length_source_le {count : Nat} (few : count ≤ 100000) :
    (source count).text.length ≤ 36 * count := by
  have narrow : ∀ name ∈ (List.range count).map numbered, name.length ≤ 6 := by
    intro name member
    obtain ⟨i, below, rfl⟩ := List.mem_map.mp member
    have small : i < 10 ^ 5 := lt_of_lt_of_le (List.mem_range.mp below) few
    have digits := (Nat.length_toDigits_le_iff (by decide) (by decide)).mpr small
    rw [numbered, List.length_cons]
    omega
  have chars := length_text_le narrow
  have bytes := Utf8.length_encode_le (text ((List.range count).map numbered))
  rw [List.length_map, List.length_range] at chars
  change (Utf8.encode (text _)).length ≤ _
  omega

/-- Sources that declare variables are compiled, and their programs can be loaded. -/
theorem exists_program {count : Nat} (few : count ≤ 100000) (platform : Platform) :
    ∃ tree text image first, compile (source count) platform = .ok text ∧
      Assembly.assemble text = .ok image ∧ Machine.load {} image = .ok first ∧
      Simulation.Loaded (source count) platform tree image {} 0 first ∧
      (Generator.program platform tree).2.context.length = count := by
  obtain ⟨tree, locals, parsed, typed, size, none⟩ := parse_source count
  obtain ⟨text, image, compiled, assembled, rfl, rfl⟩ :=
    Compiler.compile_of_typed platform parsed typed
  have limit : (source count).text.length ≤ Source.wordLimit := by
    have short := length_source_le few
    rw [Source.wordLimit]
    omega
  have fits : image.Fits := by
    have size := Generator.size_data assembled
    have pool : (Generator.program platform tree).2.strings =
        ([] ++ Stmt.allLiterals tree).eraseDups :=
      Generator.strings_statements_eq tree (g := {}) rfl
    rw [pool, none] at size
    exact le_trans (Nat.add_le_add_left size _) (by decide)
  obtain ⟨first, loads, _⟩ := Machine.load_of_fits fits {}
  exact ⟨tree, _, image, first, compiled, assembled, loads,
    ⟨limit, parsed, typed, assembled, loads⟩, size⟩

end Declarations

end Onepass
