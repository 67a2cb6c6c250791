import Onepass.Proofs.Simulation.Heap

/-! Executing placed code. An instruction is fetched and decoded where it was placed; what it does
depends on the operands it reads and the one it writes. So straight code is executed one instruction
after the other, and what is known about the registers, the memory and the flags is carried along. -/
namespace Onepass.Simulation

open Assembly (Code Placed)
open Codegen (localLabel)
open Machine

/-- Whether a machine is about to execute some code, which is the rest of the program. At a local
label that the code does not show, the stack ends with the frame. -/
def Before (P : Setting) (code : Code) (m : Machine) : Prop :=
  ∃ index : Nat, m.pc = index ∧ Placed P.layout P.text index code ∧ P.Shows index code ∧
    ∀ {k : Nat}, P.layout.label? (localLabel k) = some index →
      (localLabel k, index) ∈ code.places index ∨ P.Level m.registers

/-- Where straight code has led from an origin: the code that is next, the registers, the memory and
the flags. The heap ends where it did and nothing was written out. -/
structure At (P : Setting) (blocks : Ledger) (origin : Machine) (code : Code)
    (registers : Registers) (memory : Memory) (flags : Flags) (m : Machine) : Prop where
  ready : Ready P blocks m
  before : Before P code m
  registers : m.registers = registers
  memory : m.memory = memory
  flags : m.flags = flags
  heap : m.heap = origin.heap
  sink : m.sink = origin.sink

/-- Whether an operand has a value, and reading it is permitted. -/
structure Readable (P : Setting) (blocks : Ledger) (r : Registers) (memory : Memory) (o : Operand)
    (v : Word) : Prop where
  value : ∀ m : Machine, m.registers = r → m.memory = memory → perform (Exec.read o) m = (.ok v, m)
  allowed : ∀ m : Machine, m.registers = r → m.InStack → ∀ a ∈ o.accesses m 4 false,
    Permitted P.constants blocks m a

/-- What writing an operand does; it is permitted and sets no header. -/
structure Writable (P : Setting) (blocks : Ledger) (r : Registers) (memory : Memory) (o : Operand)
    (v : Word) (after : Registers) (changed : Memory) : Prop where
  effect : ∀ m : Machine, m.registers = r → m.memory = memory →
    perform (Exec.write o v) m = (.ok (), { m with registers := after, memory := changed })
  allowed : ∀ m : Machine, m.registers = r → m.InStack → ∀ a ∈ o.accesses m 4 true,
    Permitted P.constants blocks m a
  kept : ∀ m : Machine, m.registers = r → ∀ b ∈ blocks,
    b.length ≠ none ∨ ⟨b.address, 4, true⟩ ∉ o.accesses m 4 true

theorem accessible_of {a : Word} {size : Nat} (low : Assembly.dataBase.toNat ≤ a.toNat)
    (high : a.toNat + size ≤ memorySize) : accessible a size = true := by
  have above : Assembly.dataBase ≤ a := UInt32.le_iff_toNat_le.mpr low
  simp [accessible, above, high]

/-- The stack is accessible. -/
theorem accessible_stack {a : Word} (low : heapLimit ≤ a.toNat + 4)
    (high : a.toNat + 4 ≤ memorySize) : accessible a 4 = true :=
  accessible_of (le_trans (by decide) (Nat.sub_le_of_le_add low)) high

section

variable {P : Setting} {blocks : Ledger} {goal : Ledger → Machine → Prop} {m n origin : Machine}
  {mnemonic name : Bytes} {code rest : Code} {k : Mnemonic} {decoded : List Operand}
  {r after : Registers} {memory changed : Memory} {flags : Flags} {v w : Word}

private theorem mem_places_label {index place : Nat} {other : Bytes}
    (member : (other, place) ∈ Code.places index (.label name :: rest)) :
    place = index ∨ (other, place) ∈ rest.places index := by
  rcases List.mem_append.mp member with here | later
  · simp only [List.map_cons, List.map_nil, List.mem_singleton] at here
    exact .inl (Prod.mk.inj here).2
  · exact .inr later

/-- A label may be passed when the stack ends with the frame. -/
theorem Before.label (before : Before P (.label name :: rest) m) (level : P.Level m.registers) :
    Before P rest m := by
  obtain ⟨index, pc, placed, shown, _⟩ := before
  refine ⟨index, pc, (Assembly.placed_label.mp placed).2, fun known after => ?_,
    fun _ => .inr level⟩
  exact (mem_places_label (shown known after)).resolve_left after.ne'

/-- A label further on in the code. -/
theorem Before.labelled (before : Before P (code ++ .label name :: rest) m) :
    P.Labelled name rest := by
  obtain ⟨index, pc, placed, shown, _⟩ := before
  obtain ⟨known, placed⟩ := Assembly.placed_label.mp (Assembly.placed_append.mp placed).2
  refine ⟨_, known, placed, fun {k place} found after => ?_⟩
  have member := shown found (by omega)
  rw [Assembly.places_append] at member
  rcases List.mem_append.mp member with front | behind
  · exact absurd (Assembly.index_of_places front) (by omega)
  · exact (mem_places_label behind).resolve_left after.ne'

/-- After an instruction comes the code behind it. -/
theorem Before.next {operands : List Assembly.Operand}
    (before : Before P (.instruction mnemonic operands :: rest) m) (moved : n.pc = m.pc + 1) :
    Before P rest n := by
  obtain ⟨index, pc, placed, shown, _⟩ := before
  have onto : n.pc = (index + 1 : Nat) := by rw [moved, pc]; rfl
  refine ⟨index + 1, onto, (Assembly.placed_instruction.mp placed).2, fun known after => ?_,
    fun known => .inl ?_⟩
  · exact shown known (by omega)
  · exact shown known (Nat.lt_succ_self index)

/-- Where an instruction stands at a local label, the stack ends with the frame. -/
theorem Before.level {operands : List Assembly.Operand} {k index : Nat}
    (before : Before P (.instruction mnemonic operands :: rest) m)
    (known : P.layout.label? (localLabel k) = some index) (here : m.pc = index) :
    P.Level m.registers := by
  obtain ⟨place, pc, _, _, atLabel⟩ := before
  obtain rfl : index = place := by omega
  refine (atLabel known).resolve_left fun member => ?_
  have later : (localLabel k, index) ∈ rest.places (index + 1) := member
  exact absurd (Assembly.le_of_places later) (by omega)

/-- Nothing has been executed yet. -/
theorem At.start (ready : Ready P blocks m) (before : Before P code m) :
    At P blocks m code m.registers m.memory m.flags m :=
  ⟨ready, before, rfl, rfl, rfl, rfl, rfl⟩

/-- Accesses at or above the stack pointer are permitted. -/
theorem permitted_stack {a : Access} {constants : List Constant} (inside : m.InStack)
    (above : m.registers.esp.toNat ≤ a.address.toNat)
    (below : a.address.toNat + a.size ≤ memorySize) : Permitted constants blocks m a := by
  refine .stack (le_trans ?_ above) below
  have low := inside.1
  unfold stackFloor
  split
  · have four : (4 : Word).toNat = 4 := rfl
    rw [Word.toNat_sub_of_le (by rw [four]; exact le_trans (by decide) low)]
    exact Nat.sub_le ..
  · exact le_refl _

section Decoding

variable {l : Assembly.Layout} {a b : Assembly.Operand} {x y : Operand}

theorem instruction_two (known : Mnemonic.ofName? mnemonic = some k) (two : k.arity = (2, 2))
    (plain : isBranch mnemonic = false) (first : l.operand a = .ok x)
    (second : l.operand b = .ok y) (number : Nat) :
    l.instruction number ⟨mnemonic, [a, b]⟩ = .ok ⟨k, [x, y], number⟩ := by
  simp only [Assembly.Layout.instruction, known, two, plain, Bool.false_eq_true, if_false,
    List.mapM_cons, List.mapM_nil, first, second, List.length_cons, List.length_nil]
  rfl

theorem instruction_one (known : Mnemonic.ofName? mnemonic = some k)
    (one : k.arity.1 ≤ 1 ∧ 1 ≤ k.arity.2) (plain : isBranch mnemonic = false)
    (first : l.operand a = .ok x) (number : Nat) :
    l.instruction number ⟨mnemonic, [a]⟩ = .ok ⟨k, [x], number⟩ := by
  have fits : ¬ (1 < k.arity.1 ∨ k.arity.2 < 1) := by omega
  simp only [Assembly.Layout.instruction, known, plain, Bool.false_eq_true, if_false,
    List.mapM_cons, List.mapM_nil, first, List.length_cons, List.length_nil]
  rw [if_neg fits]
  rfl

/-- Branches go where their label is. -/
theorem instruction_branch (known : Mnemonic.ofName? mnemonic = some k) (one : k.arity = (1, 1))
    (branch : isBranch mnemonic = true)
    (target : l.target mnemonic (Codegen.destination name) = .ok x) (number : Nat) :
    l.instruction number ⟨mnemonic, [Codegen.destination name]⟩ = .ok ⟨k, [x], number⟩ := by
  simp only [Assembly.Layout.instruction, known, one, branch, if_true, List.mapM_cons, target,
    List.length_cons, List.length_nil, List.mapM_nil]
  rfl

theorem target_of_label {index : Nat} (known : l.label? name = some index) :
    l.target mnemonic (Codegen.destination name) = .ok (.target name index) := by
  simp only [Assembly.Layout.target, Codegen.destination, known]

end Decoding

section Execution

variable {operands : List Assembly.Operand}

theorem At.fetched
    (here : At P blocks origin (.instruction mnemonic operands :: rest) r memory flags m)
    (decodes : ∀ number, P.layout.instruction number ⟨mnemonic, operands⟩ =
      .ok ⟨k, decoded, number⟩) : ∃ line, m.fetch? = some ⟨k, decoded, line⟩ := by
  obtain ⟨index, pc, placed, _⟩ := here.before
  obtain ⟨⟨number, instr, found, there⟩, _⟩ := Assembly.placed_instruction.mp placed
  obtain rfl := Except.ok.inj ((decodes number).symm.trans found)
  refine ⟨number, ?_⟩
  have positive : ¬ m.pc < 0 := by omega
  rw [fetch?, if_neg positive, pc, here.ready.text]
  exact there

/-- What is watched at an instruction that does not return. -/
theorem At.watch {i : Instr}
    (here : At P blocks origin (.instruction mnemonic operands :: rest) r memory flags m)
    (fetched : m.fetch? = some i) (stays : i.mnemonic ≠ .ret)
    (aligned : i.mnemonic = .call → P.platform.alignsCalls = true → r.esp.toNat % 16 = 0)
    (safe : Safe P.constants blocks m) : P.Watch blocks m where
  safe := safe
  tidy := here.ready.tidy
  returns returning := absurd (by simpa [fetched] using returning) stays
  level known place := here.before.level known place
  aligned aligns calls := by
    rw [here.registers]
    exact aligned (by simpa [fetched] using calls) aligns

theorem safe_of_allowed {i : Instr} (fetched : m.fetch? = some i)
    (allowed : ∀ a ∈ i.accesses m, Permitted P.constants blocks m a) : Safe P.constants blocks m :=
  fun a member => allowed a (mem_accesses fetched member)

/-- An instruction that is executed and goes on with the next one. -/
theorem At.execute
    (here : At P blocks origin (.instruction mnemonic operands :: rest) r memory flags m)
    (decodes : ∀ number, P.layout.instruction number ⟨mnemonic, operands⟩ =
      .ok ⟨k, decoded, number⟩) {changedFlags : Flags} (plain : k ≠ .call) (stays : k ≠ .ret)
    (allowed : m.fetch?.map Instr.mnemonic = some k → ∀ line,
      ∀ a ∈ Instr.accesses ⟨k, decoded, line⟩ m, Permitted P.constants blocks m a)
    (kept : ∀ line, ∀ b ∈ blocks, b.length ≠ none ∨
      ⟨b.address, 4, true⟩ ∉ Instr.accesses ⟨k, decoded, line⟩ m)
    (done : ∀ line, perform (Machine.execute ⟨k, decoded, line⟩) m.next =
      (.ok (), { m.next with registers := after, memory := changed, flags := changedFlags }))
    (onward : ∀ n, At P blocks origin rest after changed changedFlags n →
      Leads P.Watch goal blocks n) : Leads P.Watch goal blocks m := by
  obtain ⟨line, fetched⟩ := here.fetched decodes
  have ready := here.ready
  have there : m.fetch?.map Instr.mnemonic = some k := by rw [fetched]; rfl
  have stepped : m.step = (.ok (),
      { m.next with registers := after, memory := changed, flags := changedFlags }) := by
    rw [step_eq ready.running fetched, done line]
  have tracked : blocks.track m = blocks := by
    refine Ledger.track_eq (by simp [routine?_of_plain fetched plain]) fun b member => ?_
    exact (kept line b member).imp id fun untouched found => untouched (mem_accesses fetched found)
  have watched := here.watch fetched stays (fun calls => absurd calls plain)
    (safe_of_allowed fetched (allowed there line))
  refine .next ⟨ready.running, watched, stepped, tracked⟩ (.inside fun inside => onward _ ?_)
  exact ⟨⟨ready.text, ready.running, ready.status, inside, ready.tidy⟩, here.before.next rfl, rfl,
    rfl, rfl, here.heap, here.sink⟩

/-- An instruction that fails. -/
theorem At.fault {fault : Fault} {failed : Machine}
    (here : At P blocks origin (.instruction mnemonic operands :: rest) r memory flags m)
    (decodes : ∀ number, P.layout.instruction number ⟨mnemonic, operands⟩ =
      .ok ⟨k, decoded, number⟩) (plain : k ≠ .call) (stays : k ≠ .ret) (own : fault ≠ .aborted)
    (allowed : ∀ i, m.step.1 = .error ⟨fault, some i⟩ → ∀ line,
      ∀ a ∈ Instr.accesses ⟨k, decoded, line⟩ m, Permitted P.constants blocks m a)
    (done : ∀ line, perform (Machine.execute ⟨k, decoded, line⟩) m.next = (.error fault, failed)) :
    P.Watch blocks m ∧ ∃ i, m.step = (.error ⟨fault, some i⟩, failed) := by
  obtain ⟨line, fetched⟩ := here.fetched decodes
  have stopped : m.step = (.error ⟨fault, some ⟨k, decoded, line⟩⟩, failed) := by
    rw [step_eq here.ready.running fetched, done line]
    cases fault with
    | aborted => exact absurd rfl own
    | _ => rfl
  exact ⟨here.watch fetched stays (fun calls => absurd calls plain)
    (safe_of_allowed fetched (allowed _ (by rw [stopped]) line)), _, stopped⟩

end Execution

end

end Onepass.Simulation
