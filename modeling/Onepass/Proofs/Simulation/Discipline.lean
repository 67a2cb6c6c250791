import Onepass.Proofs.Simulation.Depth
import Onepass.Proofs.Simulation.Fragments
import Onepass.Proofs.Simulation.Safety

/-! The stack discipline of compiled programs. A step does to the pointers what its line tells, so
code that calls a routine gives the stack back. At every local label the stack ends with the frame,
calls are aligned where the platform asks for it, and a program that returns leaves the stack and the
base to its caller as they were. -/
namespace Onepass

open Assembly (Code Image Layout Placed)
open Codegen (boundsLabel localLabel)
open Machine
open Simulation (CallSequence Flows Permits Sequenced)

namespace Assembly

/-- The names of an image. -/
def Image.layout (image : Image) : Layout := { symbols := image.symbols, labels := image.labels }

/-- Only the names of a layout matter for the code. -/
theorem Placed.names {l other : Layout} {text : Array Instr} {index : Nat} {code : Code}
    (symbols : l.symbols = other.symbols) (labels : l.labels = other.labels)
    (placed : Placed l text index code) : Placed other text index code := by
  have label (name : Bytes) : l.label? name = other.label? name := by
    simp only [Layout.label?, labels]
  have same : l.instruction = other.instruction := by
    rcases l with ⟨_, _, _, _, _⟩
    rcases other with ⟨_, _, _, _, _⟩
    cases symbols
    cases labels
    rfl
  induction code generalizing index with
  | nil => trivial
  | cons line rest ih =>
    rcases line with ⟨names, _ | ⟨d | i⟩⟩
    · exact ⟨fun name member => (label name).symm.trans (placed.1 name member), ih placed.2⟩
    · cases placed
    · obtain ⟨⟨number, instr, decoded, there⟩, placed⟩ := placed
      exact ⟨⟨number, instr, same ▸ decoded, there⟩, ih placed⟩

end Assembly

namespace Machine

section

variable {l : Layout} {platform : Platform} {ground p q : Pointers} {i : Assembly.Instruction}
  {instr : Instr} {number : Nat} {m n : Machine}

/-- Where a branch goes: to a label of the program, or to a routine outside it. -/
theorem target_of_branch {o : Operand} (decoded : l.instruction number i = .ok instr)
    (branches : isBranch i.mnemonic = true) (member : o ∈ instr.operands) :
    ∃ name, Assembly.Operand.absolute (.symbol name) ∈ i.operands ∧
      ((∃ index : Nat, l.label? name = some index ∧ o = .target name index) ∨
        i.mnemonic = "call" ∧ l.label? name = none ∧ o = .target name (-1)) := by
  have related := operands_decoded decoded
  simp only [branches, if_true] at related
  generalize instr.operands = operands, i.operands = line at *
  induction related with
  | nil => cases member
  | cons first _ ih =>
    rcases List.mem_cons.mp member with rfl | later
    · cases first with
      | inside placed => exact ⟨_, List.mem_cons_self .., .inl ⟨_, placed, rfl⟩⟩
      | outside calls unknown =>
        exact ⟨_, List.mem_cons_self .., .inr ⟨calls, Option.eq_none_iff_forall_ne_some.mpr unknown,
          rfl⟩⟩
    · obtain ⟨name, known, goes⟩ := ih later
      exact ⟨name, List.mem_cons_of_mem _ known, goes⟩

/-- Whether the routines that compiled code calls are no labels of the program. -/
def Outside (l : Layout) (platform : Platform) : Prop :=
  ∀ routine ∈ [Routine.printf, .malloc], l.label? (platform.symbol routine.name) = none

theorem spelled_call (decoded : l.instruction number i = .ok instr) (calls : instr.mnemonic = .call) :
    i.mnemonic = "call" := by
  rw [← name_of_ofName? (ofName?_of_instruction decoded), calls]
  rfl

/-- A call that is permitted calls a routine outside the program. -/
theorem routine_of_permits {o : Operand} (outside : Outside l platform)
    (permits : Permits platform ground p i) (decoded : l.instruction number i = .ok instr)
    (calls : instr.mnemonic = .call) (member : o ∈ instr.operands) :
    ∃ routine ∈ [Routine.printf, .malloc], o = .target (platform.symbol routine.name) (-1) := by
  have spelled := spelled_call decoded calls
  obtain ⟨name, known, goes⟩ :=
    target_of_branch decoded (by rw [spelled]; rfl) member
  have permitted := permits name known
  rw [if_pos spelled] at permitted
  obtain ⟨routine, used, rfl⟩ : ∃ routine ∈ [Routine.printf, .malloc],
      name = platform.symbol routine.name := by
    rcases permitted with rfl | rfl
    · exact ⟨.printf, by simp, rfl⟩
    · exact ⟨.malloc, by simp, rfl⟩
  rcases goes with ⟨index, placed, _⟩ | ⟨_, _, rfl⟩
  · rw [outside routine used] at placed
    cases placed
  · exact ⟨routine, used, rfl⟩

/-- A call that is permitted goes on with the program. -/
theorem quiet_of_permits (outside : Outside l platform) (permits : Permits platform ground p i)
    (decoded : l.instruction number i = .ok instr) (calls : instr.mnemonic = .call) :
    ∀ m, (perform (execute instr) m).2.halted = m.halted := by
  intro m
  obtain ⟨result, found, known⟩ := perform_operand (m := m) instr 0
  unfold execute
  rw [calls]
  dsimp only
  rw [perform_bind, found]
  cases result with
  | error fault => rfl
  | ok o =>
    obtain ⟨routine, used, rfl⟩ := routine_of_permits outside permits decoded calls
      (List.mem_of_getElem? (known o rfl))
    have opened : callTo (Operand.target (platform.symbol routine.name) (-1)).destination =
        routine.run := by
      have calls : callTo (Operand.target (platform.symbol routine.name) (-1)).destination =
          Routine.call (platform.symbol routine.name) := rfl
      rw [calls, Routine.call, Simulation.routine_symbol]
    dsimp only
    rw [opened]
    have quiet : Quiet False routine.run := by
      simp only [List.mem_cons, List.not_mem_nil, or_false] at used
      rcases used with rfl | rfl
      · exact .printf
      · exact .malloc
    exact (quiet.calm m).halted

theorem after_jump {k : Mnemonic} (known : Mnemonic.ofName? i.mnemonic = some k)
    (jumps : k.isJump = true) (moves : p.after i = some q) : q = p := by
  unfold Pointers.after at moves
  rw [known] at moves
  cases k with
  | jmp | jump _ =>
    simp only [Pointers.named] at moves
    split at moves
    · cases moves
    · exact (Option.some.inj moves).symm
  | _ => cases jumps

theorem branch_of_isJump {k : Mnemonic} (jumps : k.isJump = true) :
    isBranch k.name = true ∧ k.name ≠ "call" := by
  cases k with
  | jmp => exact Layout.isBranch_of_jump (.inl rfl : _ ∨ _ = Mnemonic.jump .below)
  | jump condition => exact Layout.isBranch_of_jump (.inr rfl)
  | _ => cases jumps

/-- What a step does to the pointers: it goes on with the next line, or it jumps to where it is
permitted to. -/
theorem Poised.flow {mnemonic : Bytes} {operands : List Assembly.Operand} {rest : Code}
    (here : Poised l (.instruction mnemonic operands :: rest) m) (outside : Outside l platform)
    (describes : p.Describes m.registers) (moves : p.after ⟨mnemonic, operands⟩ = some q)
    (permits : Permits platform ground p ⟨mnemonic, operands⟩) (stepped : m.step = (.ok (), n)) :
    q.Describes n.registers ∧ n.text = m.text ∧
      (Poised l rest n ∧ n.pc = m.pc + 1 ∨
        n.halted = false ∧ (Mnemonic.ofName? mnemonic).any Mnemonic.isJump = true ∧
          ∃ name, ∃ index : Nat, l.label? name = some index ∧ n.pc = index ∧
            (name = boundsLabel ∨ (∃ k, name = localLabel k) ∧ { q with edi := none } = ground)) := by
  obtain ⟨index, pc, placed⟩ := here.placed
  obtain ⟨⟨number, instr, decoded, there⟩, _⟩ := Assembly.placed_instruction.mp placed
  have known := ofName?_of_instruction decoded
  have fetched : m.fetch? = some instr := by
    rw [fetch?, if_neg (by omega), pc]
    exact there
  have done := perform_of_step here.running fetched stepped
  obtain ⟨described, goes⟩ := Pointers.Describes.execute (m := m.next) describes decoded moves
    (fun calls o member => by
      obtain ⟨_, _, rfl⟩ := routine_of_permits outside permits decoded calls member
      exact (by decide : (-1 : Int) < 0)) done
  have running : n.halted = false := by
    by_cases calls : instr.mnemonic = .call
    · have kept := quiet_of_permits outside permits decoded calls m.next
      rw [done] at kept
      exact kept.trans here.running
    · have stays : instr.mnemonic ≠ .ret := by
        intro returns
        simp [Pointers.after, known, returns] at moves
      have kept := ((quiet_execute calls stays).calm m.next).halted
      rw [done] at kept
      exact kept.trans here.running
  have text : n.text = m.text := by
    have kept := (step_keeps m).1
    rwa [stepped] at kept
  refine ⟨described, text, ?_⟩
  rcases goes with next | ⟨jumps, o, member, gone⟩
  · exact .inl ⟨here.next running text next, next⟩
  · have spelled := name_of_ofName? known
    dsimp only at spelled
    obtain ⟨branches, apart⟩ : isBranch mnemonic = true ∧ mnemonic ≠ "call" :=
      spelled ▸ branch_of_isJump jumps
    obtain ⟨name, written, ⟨index, label, rfl⟩ | ⟨calls, _⟩⟩ := target_of_branch decoded branches member
    · have permitted := permits name written
      rw [if_neg apart] at permitted
      obtain rfl := after_jump known jumps moves
      exact .inr ⟨running, by rw [known]; exact jumps, name, index, label, gone, permitted⟩
    · exact absurd calls apart

/-- Whether a line holds an instruction that does not jump. -/
def isStraight : Assembly.Line → Bool
  | ⟨[], some (.instruction i)⟩ => !(Mnemonic.ofName? i.mnemonic).any Mnemonic.isJump
  | _ => false

/-- Straight code makes of the pointers what its lines tell. -/
theorem Poised.proceed {fits : Word → Prop} {code : Code} (here : Poised l code m)
    (outside : Outside l platform) (straight : code.all isStraight = true)
    (flows : Flows platform fits ground p code q) (describes : p.Describes m.registers)
    (done : m.proceed code.instructions = (.ok (), n)) :
    q.Describes n.registers ∧ n.pc = m.pc + code.instructions := by
  induction flows generalizing m with
  | nil p =>
    cases done
    exact ⟨describes, (Int.add_zero _).symm⟩
  | label name => cases straight
  | @instruction p r q mnemonic operands rest moves inside permits later ih =>
    rw [List.all_cons, Bool.and_eq_true] at straight
    rw [Assembly.instructions_instruction, Machine.proceed] at done
    cases stepped : m.step with
    | mk result next =>
      rw [stepped] at done
      cases result with
      | error stop => cases done
      | ok _ =>
        obtain ⟨described, text, ⟨there, pc⟩ | ⟨_, jumps, _⟩⟩ :=
          here.flow outside describes moves permits stepped
        · obtain ⟨described, last⟩ := ih there straight.2 described done
          refine ⟨described, ?_⟩
          rw [last, pc, Assembly.instructions_instruction, Nat.cast_add, Nat.cast_one]
          ring
        · have stays := straight.1
          simp [isStraight, Assembly.Line.instruction, jumps] at stays

theorem straight_of_sequence {code : Code} (known : CallSequence platform code) :
    code.all isStraight = true := by
  cases known with
  | malloc bytes => cases platform <;> rfl
  | printf format => cases platform <;> rfl

/-- The code that calls a routine leaves the stack pointer as it was. -/
theorem esp_of_sequence {code : Code} (known : CallSequence platform code)
    (outside : Outside l platform) (here : Poised l code m)
    (done : m.proceed code.instructions = (.ok (), n)) :
    n.registers.esp = m.registers.esp ∧ n.pc = m.pc + code.instructions := by
  have describes : Pointers.Describes ⟨m.registers.esp, none, none⟩ m.registers := .of_esp rfl
  have flows : ∃ w, Flows platform (fun _ => True) ⟨0, none, none⟩ ⟨m.registers.esp, none, none⟩ code
      ⟨m.registers.esp, none, w⟩ := by
    cases known with
    | malloc bytes => exact (Simulation.balanced_allocate bytes).flows _ fun _ _ => trivial
    | printf format => exact (Simulation.balanced_printFormat format).flows _ fun _ _ => trivial
  obtain ⟨w, flows⟩ := flows
  obtain ⟨described, pc⟩ := here.proceed outside (straight_of_sequence known) flows describes done
  exact ⟨described.esp, pc⟩

/-- Whether an instruction is one of the code that calls a routine. -/
def Sequel (platform : Platform) (l : Layout) (text : Array Instr) (index : Nat) : Prop :=
  ∃ start code, CallSequence platform code ∧ Placed l text start code ∧ start ≤ index ∧
    index < start + code.instructions

theorem sequel_of_sequenced {code : Code} {text : Array Instr} {start index : Nat}
    (sequenced : Sequenced platform code) (placed : Placed l text start code)
    (low : start ≤ index) (high : index < start + code.instructions)
    (fetched : text[index]? = some instr) (calls : instr.mnemonic = .call) :
    Sequel platform l text index := by
  induction sequenced generalizing start with
  | nil =>
    rw [Assembly.instructions_nil] at high
    omega
  | @line line rest other _ ih =>
    rcases line with ⟨labels, _ | ⟨d | i⟩⟩
    · exact ih placed.2 low high
    · cases placed
    · obtain ⟨⟨number, first, decoded, there⟩, placed⟩ := placed
      by_cases same : index = start
      · subst same
        obtain rfl := Option.some.inj (there.symm.trans fetched)
        have spelled := spelled_call decoded calls
        simp [Simulation.isCall, spelled] at other
      · have high : index < start + (Code.instructions rest + 1) := high
        exact ih placed (by omega) (by omega)
  | @sequence code rest known _ ih =>
    rw [Assembly.placed_append] at placed
    rw [Assembly.instructions_append] at high
    by_cases within : index < start + code.instructions
    · exact ⟨start, code, known, placed.1, low, within⟩
    · exact ih placed.2 (by omega) (by omega)

end

/-- Whether the stack of a running program is as it should be. -/
structure Disciplined (platform : Platform) (image : Image) (locals : Nat) (first m : Machine) :
    Prop where
  /-- At a local label the frame is set up, and nothing else is on the stack. -/
  level : ∀ k index : Nat, image.labels.lookup (localLabel k) = some index → m.pc = index →
    m.registers.ebp = first.registers.esp - 8 ∧
      m.registers.esp = m.registers.ebp - (4 * locals).toUInt32
  /-- A program that has returned has given back the stack and the base. -/
  returned : m.halted = true → m.registers.esp = first.registers.esp ∧
    m.registers.ebp = first.registers.ebp ∧ m.status = 0
  aligned : platform = .darwin → m.halted = false → m.fetch?.map Instr.mnemonic = some .call →
    m.registers.esp.toNat % 16 = 0
  /-- Only the failed bounds check calls a routine in another way than with such a sequence. -/
  calls : m.halted = false → m.fetch?.map Instr.mnemonic = some .call →
    m.routine? = some .abort ∨ Sequel platform image.layout m.text m.pc.toNat
  /-- After a sequence that calls a routine the stack pointer is what it was before. -/
  restored : ∀ code n, CallSequence platform code → Poised image.layout code m →
    m.proceed code.instructions = (.ok (), n) →
      n.registers.esp = m.registers.esp ∧ n.pc = m.pc + code.instructions

end Machine

namespace Generator

open Syntax (Stmt)

/-- A program has the instructions of its text. -/
theorem size_text_program {platform : Platform} {tree : List Stmt} {image : Image}
    (assembled : Assembly.assemble (Codegen.Builder.text ((program platform tree).2.builder platform
      (program platform tree).1)) = .ok image) :
    image.text.size = ((program platform tree).2.main platform
      (program platform tree).1).instructions := by
  have placed : (program platform tree).1.labels.Perm
      (localLabels 0 (program platform tree).2.nextLabel) := labels_statements tree {}
  obtain ⟨l, laid, _, _, count⟩ := layout_program placed (isText_program platform tree)
  rw [Assembly.assemble, read_text] at assembled
  obtain ⟨other, first, second⟩ := bind_eq_ok.mp assembled
  obtain rfl : l = other := Except.ok.inj (laid.symm.trans first)
  have agree : Assembly.Agree {} { symbols := l.symbols, labels := l.labels } := ⟨rfl, rfl⟩
  rw [← count]
  exact (agree.lines first second).count.symm

end Generator

namespace Simulation

section

variable {source : Source} {platform : Platform} {tree : List Syntax.Stmt} {image : Image}
  {sink : Sink} {maxSteps : Int} {first m n : Machine} {l : Layout} {blocks : Ledger}

/-- The part of the routine for failed bounds checks that comes before its call. -/
def beforeAbort (platform : Platform) : Code :=
  [.label boundsLabel] ++
    if platform.alignsCalls then [.instruction "andl" [Codegen.constant (-16), Codegen.esp]] else []

/-- All of a program but its last call. -/
def beforeEnd (platform : Platform) (tree : List Syntax.Stmt) : Code :=
  .label (platform.symbol "main") :: (entering (Generator.program platform tree).2.context.length ++
    ((Generator.program platform tree).1 ++ (leaving ++ beforeAbort platform)))

theorem main_eq_beforeEnd (platform : Platform) (tree : List Syntax.Stmt) :
    (Generator.program platform tree).2.main platform (Generator.program platform tree).1 =
      beforeEnd platform tree ++
        [.instruction "call" [Codegen.destination (platform.symbol "abort")]] := by
  rw [main_eq, mainCode, beforeEnd, Codegen.Builder.boundsRoutine, beforeAbort]
  simp only [List.cons_append, List.append_assoc]

theorem sequenced_beforeEnd (platform : Platform) (tree : List Syntax.Stmt) :
    Sequenced platform (beforeEnd platform tree) := by
  have body : Grounded platform (fun _ => True) ⟨0, none, none⟩ _
      (Generator.program platform tree).1 := grounded_statements rfl tree {}
  have last : Sequenced platform (leaving ++ beforeAbort platform) :=
    .lines (by cases platform <;> rfl)
  exact .line rfl ((Sequenced.lines rfl).append (body.sequenced.append last))

/-- Where the stack ends when only the frame is on it. -/
theorem esp_of_level {P : Setting} (inside : m.InStack)
    (top : m.registers.esp.toNat = P.frameBottom) :
    m.registers.esp = frameBase - (4 * P.locals.length).toUInt32 := by
  have low := inside.1
  have base : frameBase.toNat = 0x100000 - 8 := rfl
  have floor : heapLimit = 0xF0000 := rfl
  have ceiling : memorySize = 0x100000 := rfl
  rw [Setting.frameBottom, ceiling] at top
  have small : (4 * P.locals.length).toUInt32.toNat = 4 * P.locals.length :=
    Word.toNat_natCast (by omega)
  rw [← UInt32.toNat_inj, UInt32.toNat_sub, top, base, small]
  omega

theorem text_of_reaches (reaches : Reaches [] m blocks n) : n.text = m.text := by
  induction reaches with
  | start _ => rfl
  | @step _ middle after _ stepped _ ih =>
    have kept := (step_keeps middle).1
    rw [stepped] at kept
    exact kept.trans ih

theorem outside_of_valid (valid : (settingOf platform tree l image first).Valid)
    (labels : image.labels = l.labels) : Outside image.layout platform := by
  intro routine used
  have unknown : l.labels.lookup (platform.symbol routine.name) = none :=
    label_routine valid (List.mem_append_left [Routine.abort] used)
  rwa [← labels] at unknown

/-- A call of a program is made by a sequence, or it is the one that ends the program. -/
theorem Loaded.sequel (loaded : Loaded source platform tree image sink maxSteps first)
    (valid : (settingOf platform tree l image first).Valid) (labels : image.labels = l.labels)
    (text : m.text = image.text) (running : m.halted = false)
    (calls : m.fetch?.map Instr.mnemonic = some .call) :
    m.routine? = some .abort ∨ Sequel platform image.layout m.text m.pc.toNat := by
  obtain ⟨other, symbols, same, _, placed⟩ := Generator.passes_program loaded.assembled
  have size := Generator.size_text_program loaded.assembled
  have placed : Placed image.layout image.text 0 _ := placed.names symbols.symm same.symm
  rw [main_eq_beforeEnd, Assembly.placed_append] at placed
  rw [main_eq_beforeEnd, Assembly.instructions_append] at size
  obtain ⟨instr, fetched, calls⟩ := Option.map_eq_some_iff.mp calls
  have found : m.text[m.pc.toNat]? = some instr := by
    unfold fetch? at fetched
    split at fetched
    · cases fetched
    · exact fetched
  rw [text] at found ⊢
  have bound := (Array.getElem?_eq_some_iff.mp found).1
  by_cases early : m.pc.toNat < (beforeEnd platform tree).instructions
  · exact .inr (sequel_of_sequenced (sequenced_beforeEnd platform tree) placed.1 (Nat.zero_le _)
      (by omega) found calls)
  · have last : m.pc.toNat = 0 + (beforeEnd platform tree).instructions := by
      simp only [Assembly.instructions_instruction, Assembly.instructions_nil] at size
      omega
    obtain ⟨⟨number, decoded, there, stands⟩, _⟩ := Assembly.placed_instruction.mp placed.2
    rw [← last, found] at stands
    obtain rfl := Option.some.inj stands
    have unknown : image.layout.label? (platform.symbol "abort") = none := by
      have outside : l.labels.lookup (platform.symbol "abort") = none :=
        valid.routine Routine.abort.name (by simp)
      rwa [← labels] at outside
    have target : image.layout.target "call" (Codegen.destination (platform.symbol "abort")) =
        .ok (.target (platform.symbol "abort") (-1)) := by
      simp only [Assembly.Layout.target, Codegen.destination, unknown]
      rfl
    obtain rfl := Except.ok.inj ((instruction_branch rfl rfl rfl target number).symm.trans there)
    have going : ¬ m.halted = true := by simp [running]
    have known : Routine.ofSymbol? (platform.symbol "abort") = some .abort :=
      routine_symbol platform .abort
    left
    simp only [routine?, if_neg going, fetched, Operand.target, if_pos (by decide : (-1 : Int) < 0),
      known]

end

end Simulation

namespace Compiler

/-- A program that prints an element of an array in a loop. -/
private def looping : Source := ⟨[], "a = [7] i = 0 while i < 1 \x7b i = i + 1 print a[0] \x7d"⟩

end Compiler

end Onepass
