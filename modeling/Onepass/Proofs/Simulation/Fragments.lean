import Onepass.Proofs.Machine.Division
import Onepass.Proofs.Machine.Robust
import Onepass.Proofs.Simulation.Arithmetic

/-! Fragments of code on their own. The code of an operator and the code that selects an element are
executed from any state of the machine, not only from those of a compiled program. -/
namespace Onepass

open Assembly (Code Layout Placed)
open Simulation (compares_ofSub instruction_branch instruction_one instruction_two product
  productFlags target_of_label wideInt_sign)

namespace Machine

/-- The result of a number of steps, up to the first that fails. -/
def proceed : (count : Nat) → Machine → Except Stop Unit × Machine
  | 0, m => (.ok (), m)
  | count + 1, m =>
    match m.step with
    | (.ok (), next) => proceed count next
    | (.error stop, next) => (.error stop, next)

/-- Whether a machine is about to execute some code. -/
structure Poised (l : Layout) (code : Code) (m : Machine) : Prop where
  running : m.halted = false
  placed : ∃ index : Nat, m.pc = index ∧ Placed l m.text index code

/-- Where a number of instructions has led from a state: the code that is next, the registers, the
memory and the flags. -/
structure Passed (l : Layout) (origin : Machine) (count : Nat) (code : Code) (r : Registers)
    (memory : Memory) (flags : Flags) (m : Machine) : Prop where
  poised : Poised l code m
  registers : m.registers = r
  memory : m.memory = memory
  flags : m.flags = flags
  pc : m.pc = origin.pc + count
  proceeds : ∀ rest, origin.proceed (count + rest) = m.proceed rest

section

variable {l : Layout} {origin m : Machine} {count : Nat} {mnemonic : Bytes}
  {operands : List Assembly.Operand} {code rest : Code} {r after : Registers}
  {memory changed : Memory} {flags changedFlags : Flags} {k : Mnemonic} {decoded : List Operand}

theorem Poised.fetched (here : Poised l (.instruction mnemonic operands :: rest) m)
    (decodes : ∀ number, l.instruction number ⟨mnemonic, operands⟩ = .ok ⟨k, decoded, number⟩) :
    ∃ line, m.fetch? = some ⟨k, decoded, line⟩ := by
  obtain ⟨index, pc, placed⟩ := here.placed
  obtain ⟨⟨number, instr, found, there⟩, _⟩ := Assembly.placed_instruction.mp placed
  obtain rfl := Except.ok.inj ((decodes number).symm.trans found)
  refine ⟨number, ?_⟩
  rw [fetch?, if_neg (by omega), pc]
  exact there

theorem Poised.next (here : Poised l (.instruction mnemonic operands :: rest) m) {n : Machine}
    (running : n.halted = false) (text : n.text = m.text) (pc : n.pc = m.pc + 1) :
    Poised l rest n := by
  obtain ⟨index, place, placed⟩ := here.placed
  refine ⟨running, index + 1, by rw [pc, place]; rfl, ?_⟩
  rw [text]
  exact (Assembly.placed_instruction.mp placed).2

theorem Poised.start (here : Poised l code m) :
    Passed l m 0 code m.registers m.memory m.flags m where
  poised := here
  registers := rfl
  memory := rfl
  flags := rfl
  pc := (Int.add_zero _).symm
  proceeds rest := by rw [Nat.zero_add]

/-- What a step does to the result of all steps. -/
theorem proceed_step {n : Machine} (stepped : m.step = (.ok (), n)) (count : Nat) :
    m.proceed (count + 1) = n.proceed count := by
  rw [proceed, stepped]

/-- An instruction that goes on with the next one. -/
theorem Passed.execute
    (here : Passed l origin count (.instruction mnemonic operands :: rest) r memory flags m)
    (decodes : ∀ number, l.instruction number ⟨mnemonic, operands⟩ = .ok ⟨k, decoded, number⟩)
    (done : ∀ line, perform (Machine.execute ⟨k, decoded, line⟩) m.next =
      (.ok (), { m.next with registers := after, memory := changed, flags := changedFlags })) :
    ∃ n, Passed l origin (count + 1) rest after changed changedFlags n := by
  obtain ⟨line, fetched⟩ := here.poised.fetched decodes
  have running := here.poised.running
  have stepped : m.step = (.ok (),
      { m.next with registers := after, memory := changed, flags := changedFlags }) := by
    rw [step_eq running fetched, done line]
  refine ⟨{ m.next with registers := after, memory := changed, flags := changedFlags },
    here.poised.next running rfl rfl, rfl, rfl, rfl, ?_, fun rest => ?_⟩
  · change m.pc + 1 = _
    rw [here.pc, Int.add_assoc]
    rfl
  · rw [Nat.add_assoc, Nat.add_comm 1, here.proceeds, proceed_step stepped]

/-- An instruction that fails. -/
theorem Passed.fault {fault : Fault}
    (here : Passed l origin count (.instruction mnemonic operands :: rest) r memory flags m)
    (decodes : ∀ number, l.instruction number ⟨mnemonic, operands⟩ = .ok ⟨k, decoded, number⟩)
    (done : ∀ line, perform (Machine.execute ⟨k, decoded, line⟩) m.next = (.error fault, m.next))
    (own : fault ≠ .aborted) :
    ∃ i, origin.proceed (count + 1) = (.error ⟨fault, some i⟩, m.next) := by
  obtain ⟨line, fetched⟩ := here.poised.fetched decodes
  refine ⟨⟨k, decoded, line⟩, ?_⟩
  have stopped : m.step = (.error ⟨fault, some ⟨k, decoded, line⟩⟩, m.next) := by
    rw [step_eq here.poised.running fetched, done line]
    cases fault with
    | aborted => exact absurd rfl own
    | _ => rfl
  rw [here.proceeds, proceed, stopped]

theorem Passed.contents (here : Passed l origin count code r memory flags m) :
    m.registers = r ∧ m.memory = memory ∧ m.flags = flags :=
  ⟨here.registers, here.memory, here.flags⟩

theorem Passed.proceed_eq (here : Passed l origin count code r memory flags m) :
    origin.proceed count = (.ok (), m) := by
  have done := here.proceeds 0
  rwa [Nat.add_zero] at done

end

section Instructions

variable {l : Layout} {origin m : Machine} {count : Nat} {mnemonic : Bytes}
  {a b : Assembly.Operand} {rest : Code} {r : Registers} {memory : Memory} {flags : Flags}
  {s : Register}

private theorem top_address (r : Registers) :
    r.get .esp + (0 : Int32).toUInt32 = r.esp := UInt32.add_zero _

/-- An operation whose result replaces the operand on top of the stack. -/
theorem Passed.combine {operation : Arithmetic}
    (here : Passed l origin count (.instruction mnemonic [Codegen.eax, Codegen.stackTop] :: rest) r
      memory flags m)
    (known : Mnemonic.ofName? mnemonic = some (.arithmetic operation))
    (plain : isBranch mnemonic = false) (fine : accessible r.esp 4 = true) :
    ∃ changed n, Passed l origin (count + 1) rest r
      (memory.writeWord r.esp (operation.apply (memory.readWord r.esp) r.eax).1) changed n := by
  obtain ⟨rfl, rfl, rfl⟩ := here.contents
  exact ⟨_, here.execute (instruction_two known rfl plain rfl rfl) fun line =>
    execute_arithmetic read_register (read_memory (top_address _) fine)
      (write_memory (top_address _) fine)⟩

theorem Passed.popl
    (here : Passed l origin count (.instruction "popl" [a] :: rest) r memory flags m)
    (target : l.operand a = .ok (.full s)) (fine : accessible r.esp 4 = true) :
    ∃ n, Passed l origin (count + 1) rest
      ((r.set .esp (r.esp + 4)).set s (memory.readWord r.esp)) memory flags n := by
  obtain ⟨rfl, rfl, rfl⟩ := here.contents
  exact here.execute (instruction_one rfl (by decide) rfl target) fun line => execute_popl fine

theorem Passed.drop
    (here : Passed l origin count (Codegen.dropWords 1 :: rest) r memory flags m) :
    ∃ changed n, Passed l origin (count + 1) rest (r.set .esp (r.esp + 4)) memory changed n := by
  obtain ⟨rfl, rfl, rfl⟩ := here.contents
  exact ⟨_, here.execute (instruction_two rfl rfl rfl rfl rfl) fun line =>
    execute_arithmetic read_immediate read_register write_register⟩

theorem Passed.imull
    (here : Passed l origin count (.instruction "imull" [Codegen.stackTop] :: rest) r memory flags m)
    (fine : accessible r.esp 4 = true) :
    ∃ changed n, Passed l origin (count + 1) rest (product r (memory.readWord r.esp)) memory changed
      n := by
  obtain ⟨rfl, rfl, rfl⟩ := here.contents
  exact ⟨_, here.execute (instruction_one rfl (by decide) rfl rfl) fun line =>
    execute_imull (read_memory (top_address _) fine)⟩

theorem Passed.cmpl {x y : Operand}
    (here : Passed l origin count (.instruction "cmpl" [a, b] :: rest) r memory flags m)
    {v w : Word} (source : l.operand a = .ok x) (target : l.operand b = .ok y)
    (right : perform (Exec.read x) m.next = (.ok w, m.next))
    (left : perform (Exec.read y) m.next = (.ok v, m.next)) :
    ∃ n, Passed l origin (count + 1) rest r memory (.ofSub v w) n := by
  obtain ⟨rfl, rfl, rfl⟩ := here.contents
  exact here.execute (instruction_two rfl rfl rfl source target) fun line =>
    execute_cmpl right left

/-- The low byte of the accumulator tells whether a comparison holds. -/
theorem Passed.set {comparison : Comparison}
    (here : Passed l origin count (.instruction mnemonic [Codegen.al] :: rest) r memory flags m)
    (known : Mnemonic.ofName? mnemonic = some (.set comparison))
    (plain : isBranch mnemonic = false) :
    ∃ n, Passed l origin (count + 1) rest (r.set .eax ((r.eax &&& ~~~0xFF) |||
      ((if flags.compares comparison then 1 else 0 : UInt8).toUInt32 &&& 0xFF))) memory flags n := by
  obtain ⟨rfl, rfl, rfl⟩ := here.contents
  exact here.execute (instruction_one known (by simp [Mnemonic.arity]) plain rfl) fun line => rfl

theorem Passed.movzbl
    (here : Passed l origin count (.instruction "movzbl" [Codegen.al, Codegen.eax] :: rest) r memory
      flags m) :
    ∃ n, Passed l origin (count + 1) rest (r.set .eax (r.eax &&& 0xFF).toUInt8.toUInt32) memory
      flags n := by
  obtain ⟨rfl, rfl, rfl⟩ := here.contents
  exact here.execute (instruction_two rfl rfl rfl rfl rfl) fun line => rfl

theorem Passed.saveDivisor
    (here : Passed l origin count (.instruction "movl" [Codegen.eax, Codegen.ecx] :: rest) r memory
      flags m) :
    ∃ n, Passed l origin (count + 1) rest (r.set .ecx r.eax) memory flags n := by
  obtain ⟨rfl, rfl, rfl⟩ := here.contents
  exact here.execute (instruction_two rfl rfl rfl rfl rfl) fun line => rfl

theorem Passed.cdq
    (here : Passed l origin count (.instruction "cdq" [] :: rest) r memory flags m) :
    ∃ n, Passed l origin (count + 1) rest
      (r.set .edx (if r.eax.isNegative then 0xFFFFFFFF else 0)) memory flags n := by
  obtain ⟨rfl, rfl, rfl⟩ := here.contents
  exact here.execute (fun number => rfl) fun line => rfl

theorem Passed.negl
    (here : Passed l origin count (.instruction "negl" [Codegen.eax] :: rest) r memory flags m) :
    ∃ changed n, Passed l origin (count + 1) rest (r.set .eax (-r.eax)) memory changed n := by
  obtain ⟨rfl, rfl, rfl⟩ := here.contents
  exact ⟨_, here.execute (instruction_one rfl (by decide) rfl rfl) fun line => rfl⟩

/-- A division fails, or leaves the quotient in the accumulator. -/
theorem Passed.idivl {divisor : Word} {quotient : Int}
    (here : Passed l origin count (.instruction "idivl" [Codegen.ecx] :: rest) r memory flags m)
    (ecx : r.ecx = divisor) (divided : (wideInt r.edx r.eax).tdiv divisor.toInt = quotient) :
    (divisor = 0 ∧ ∃ i n, origin.proceed (count + 1) = (.error ⟨.divisionByZero, some i⟩, n)) ∨
    (divisor ≠ 0 ∧ (Word.ofInt quotient).toInt ≠ quotient ∧
      ∃ i n, origin.proceed (count + 1) = (.error ⟨.quotientOverflow, some i⟩, n)) ∨
    (divisor ≠ 0 ∧ (Word.ofInt quotient).toInt = quotient ∧
      ∃ edx n, Passed l origin (count + 1) rest ((r.set .eax (.ofInt quotient)).set .edx edx) memory
        flags n) := by
  obtain ⟨rfl, rfl, rfl⟩ := here.contents
  subst ecx divided
  have decodes : ∀ number, l.instruction number ⟨"idivl", [Codegen.ecx]⟩ =
      .ok ⟨.idivl, [.full .ecx], number⟩ := instruction_one rfl (by decide) rfl rfl
  have opened (line : Int) : perform (Machine.execute ⟨.idivl, [.full .ecx], line⟩) m.next = _ :=
    (execute_idivl read_register).trans (perform_divideWide m.registers.ecx)
  by_cases none : m.registers.ecx = 0
  · obtain ⟨i, stopped⟩ := here.fault decodes
      (fun line => (opened line).trans (if_pos none)) (by decide)
    exact .inl ⟨none, i, _, stopped⟩
  by_cases fits : (Word.ofInt ((wideInt m.registers.edx m.registers.eax).tdiv
      m.registers.ecx.toInt)).toInt =
        (wideInt m.registers.edx m.registers.eax).tdiv m.registers.ecx.toInt
  · exact .inr (.inr ⟨none, fits, _, here.execute decodes fun line =>
      (opened line).trans ((if_neg none).trans (if_neg (not_not.mpr fits)))⟩)
  · obtain ⟨i, stopped⟩ := here.fault decodes
      (fun line => (opened line).trans ((if_neg none).trans (if_pos fits))) (by decide)
    exact .inr (.inl ⟨none, fits, i, _, stopped⟩)

end Instructions

/-- What the code of an operator leaves: the value in the accumulator, and nothing else that counts
has changed but that the left operand is popped. -/
structure Popped (m : Machine) (count : Nat) (value : Word) (n : Machine) : Prop where
  pc : n.pc = m.pc + count
  eax : n.registers.eax = value
  esp : n.registers.esp = m.registers.esp + 4
  kept : n.registers.esi = m.registers.esi ∧ n.registers.edi = m.registers.edi ∧
    n.registers.ebx = m.registers.ebx ∧ n.registers.ebp = m.registers.ebp
  memory : ∀ a : Word, m.registers.esp.toNat + 4 ≤ a.toNat → n.memory.read a = m.memory.read a

section Operators

variable {l : Layout} {m : Machine}

theorem Passed.popped {n : Machine} {count : Nat} {r : Registers} {memory : Memory} {flags : Flags}
    {value : Word} (here : Passed l m count [] r memory flags n) (eax : r.eax = value)
    (esp : r.esp = m.registers.esp + 4)
    (kept : r.esi = m.registers.esi ∧ r.edi = m.registers.edi ∧ r.ebx = m.registers.ebx ∧
      r.ebp = m.registers.ebp)
    (same : ∀ a : Word, m.registers.esp.toNat + 4 ≤ a.toNat → memory.read a = m.memory.read a) :
    ∃ n, m.proceed count = (.ok (), n) ∧ Popped m count value n := by
  obtain ⟨rfl, rfl⟩ : n.registers = r ∧ n.memory = memory := ⟨here.registers, here.memory⟩
  exact ⟨n, here.proceed_eq, here.pc, eax, esp, kept, same⟩

/-- A sum or a difference is made on the stack and popped. -/
theorem proceed_combine {operation : Arithmetic} {mnemonic : Bytes}
    (here : Poised l [.instruction mnemonic [Codegen.eax, Codegen.stackTop],
      .instruction "popl" [Codegen.eax]] m)
    (known : Mnemonic.ofName? mnemonic = some (.arithmetic operation))
    (plain : isBranch mnemonic = false) (fine : accessible m.registers.esp 4 = true) :
    ∃ n, m.proceed 2 = (.ok (), n) ∧ Popped m 2
      (operation.apply (m.memory.readWord m.registers.esp) m.registers.eax).1 n := by
  have room := (accessible_iff.mp fine).2
  simp only [memorySize] at room
  obtain ⟨_, _, combined⟩ := here.start.combine known plain fine
  obtain ⟨n, popped⟩ := combined.popl rfl fine
  exact popped.popped (Memory.readWord_writeWord _ (by omega)) rfl ⟨rfl, rfl, rfl, rfl⟩
    fun a above => Memory.same_writeWord _ (by omega) (.inl (le_refl _)) a above a.toNat_lt

theorem proceed_mul (here : Poised l Codegen.popMul m)
    (fine : accessible m.registers.esp 4 = true) :
    ∃ n, m.proceed 2 = (.ok (), n) ∧ Popped m 2
      (.ofInt (m.registers.eax.toInt * (m.memory.readWord m.registers.esp).toInt)) n := by
  obtain ⟨_, _, multiplied⟩ := here.start.imull fine
  obtain ⟨_, n, dropped⟩ := multiplied.drop
  exact dropped.popped rfl rfl ⟨rfl, rfl, rfl, rfl⟩ fun _ _ => rfl

/-- A comparison leaves one or zero. -/
theorem proceed_compare (comparison : Comparison)
    (here : Poised l (Codegen.popCompare comparison.suffix) m)
    (fine : accessible m.registers.esp 4 = true) :
    ∃ n, m.proceed 4 = (.ok (), n) ∧ Popped m 4
      (if Interpreter.holds comparison (m.memory.readWord m.registers.esp).toInt
        m.registers.eax.toInt then 1 else 0) n := by
  have known : Mnemonic.ofName? ("set" ++ comparison.suffix) = some (.set comparison) := by
    cases comparison <;> rfl
  obtain ⟨_, compared⟩ := here.start.cmpl rfl rfl read_register
    (read_memory (top_address _) fine)
  obtain ⟨_, set⟩ := compared.set known rfl
  obtain ⟨_, extended⟩ := set.movzbl
  obtain ⟨_, n, dropped⟩ := extended.drop
  refine dropped.popped ?_ rfl ⟨rfl, rfl, rfl, rfl⟩ fun _ _ => rfl
  refine (congrArg UInt8.toUInt32 (Word.toUInt8_insert ..)).trans ?_
  have outcome := compares_ofSub comparison (m.memory.readWord m.registers.esp) m.registers.eax
  change (if (Flags.ofSub (m.memory.readWord m.registers.esp) m.registers.eax).compares comparison
    then 1 else 0 : UInt8).toUInt32 = _
  rw [outcome]
  split <;> rfl

/-- Only the least number divided by minus one has a quotient out of range. -/
private theorem tdiv_within {x y : Int} (low : -0x80000000 ≤ x) (high : x < 0x80000000)
    (nonzero : y ≠ 0) :
    (-0x80000000 ≤ x.tdiv y ∧ x.tdiv y < 0x80000000) ↔ ¬ (x = -0x80000000 ∧ y = -1) := by
  by_cases negative : y = -1
  · subst negative
    rw [Int.tdiv_neg, Int.tdiv_one]
    omega
  by_cases one : y = 1
  · subst one
    rw [Int.tdiv_one]
    omega
  · have size : (x.tdiv y).natAbs = x.natAbs / y.natAbs := Int.natAbs_tdiv x y
    have halved : x.natAbs / y.natAbs ≤ x.natAbs / 2 := Nat.div_le_div_left (by omega) (by omega)
    omega

theorem quotient_fits {a b : Word} (nonzero : b.toInt ≠ 0) :
    (Word.ofInt (a.toInt.tdiv b.toInt)).toInt = a.toInt.tdiv b.toInt ↔
      ¬ (a.toInt = -0x80000000 ∧ b.toInt = -1) := by
  obtain ⟨low, high⟩ := Word.isValue_toInt a
  exact Word.toInt_ofInt_eq_iff.trans (tdiv_within low high nonzero)

end Operators

end Machine

/-- The number that an operator makes of two. Quotients are rounded toward zero, and comparisons give
one or zero. -/
def Operator.value : Operator → Int → Int → Int
  | .add, a, b => a + b
  | .sub, a, b => a - b
  | .mul, a, b => a * b
  | .div, a, b => a.tdiv b
  | .compare comparison, a, b => if Interpreter.holds comparison a b then 1 else 0

/-- Whether an operator has no result: a quotient by zero, or one that is no number of 32 bits. -/
def Operator.Undefined : Operator → Int → Int → Prop
  | .div, a, b => b = 0 ∨ a = -0x80000000 ∧ b = -1
  | _, _, _ => False

namespace Machine

/-- What the code of an operator does from a state, where the left operand is on top of the stack and
the right one in the accumulator. -/
inductive Operated (o : Operator) (m : Machine) (left right : Int) :
    Except Stop Unit × Machine → Prop
  | computed {n : Machine} (defined : ¬ o.Undefined left right)
      (popped : Popped m (Codegen.operator o).instructions (.ofInt (o.value left right)) n) :
      Operated o m left right (.ok (), n)
  | failed {stop : Stop} {n : Machine} (undefined : o.Undefined left right)
      (fault : stop.fault.isDivision = true) : Operated o m left right (.error stop, n)

section Operators

variable {l : Layout} {m : Machine}

theorem operated_of_popped {o : Operator} {left right : Int} {value : Word}
    (total : ∀ a b, ¬ o.Undefined a b) (same : value = .ofInt (o.value left right))
    (proceeds : ∃ n, m.proceed (Codegen.operator o).instructions = (.ok (), n) ∧
      Popped m (Codegen.operator o).instructions value n) :
    Operated o m left right (m.proceed (Codegen.operator o).instructions) := by
  obtain ⟨n, done, popped⟩ := proceeds
  rw [done]
  exact .computed (total left right) (same ▸ popped)

theorem operated_div (here : Poised l Codegen.popDiv m)
    (fine : accessible m.registers.esp 4 = true) :
    Operated .div m (m.memory.readWord m.registers.esp).toInt m.registers.eax.toInt
      (m.proceed 4) := by
  obtain ⟨_, saved⟩ := here.start.saveDivisor
  obtain ⟨_, popped⟩ := saved.popl rfl fine
  obtain ⟨_, extended⟩ := popped.cdq
  have quotient := congrArg (Int.tdiv · m.registers.eax.toInt)
    (wideInt_sign (m.memory.readWord m.registers.esp))
  have range (some : m.registers.eax ≠ 0) := quotient_fits
    (a := m.memory.readWord m.registers.esp) (mt Word.toInt_eq_zero_iff.mp some)
  rcases extended.idivl rfl quotient with ⟨none, i, n, stopped⟩ | ⟨some, wide, i, n, stopped⟩ |
    ⟨some, fits, edx, n, divided⟩
  · rw [stopped]
    exact .failed (.inl (congrArg Word.toInt none)) rfl
  · rw [stopped]
    exact .failed (.inr (not_not.mp fun other => wide ((range some).mpr other))) rfl
  · obtain ⟨n, done, popped⟩ := divided.popped rfl rfl ⟨rfl, rfl, rfl, rfl⟩ fun _ _ => rfl
    rw [done]
    exact .computed (fun undefined =>
      undefined.elim (mt Word.toInt_eq_zero_iff.mp some) ((range some).mp fits)) popped

/-- Emitted operators compute what the operators of numbers do, with 32 bits. The code of an operator
is executed in any state with the left operand on top of the stack and the right one in the
accumulator; it fails exactly where there is no quotient. Negation is executed in any state. -/
theorem operators_compute (l : Layout) (m : Machine) :
    (∀ o, Poised l (Codegen.operator o) m → accessible m.registers.esp 4 = true →
      Operated o m (m.memory.readWord m.registers.esp).toInt m.registers.eax.toInt
        (m.proceed (Codegen.operator o).instructions)) ∧
    (Poised l Codegen.negate m → ∃ n, m.proceed 1 = (.ok (), n) ∧ n.pc = m.pc + 1 ∧
      n.registers = m.registers.set .eax (.ofInt (-m.registers.eax.toInt)) ∧
      n.memory = m.memory) := by
  constructor
  · intro o here fine
    cases o with
    | add =>
      refine operated_of_popped (fun _ _ => id) ?_ (proceed_combine here rfl rfl fine)
      simp [Operator.value, Arithmetic.apply, Word.ofInt, Word.toInt, Int32.ofInt_add]
    | sub =>
      refine operated_of_popped (fun _ _ => id) ?_ (proceed_combine here rfl rfl fine)
      simp [Operator.value, Arithmetic.apply, Word.ofInt, Word.toInt, Int32.ofInt_sub]
    | mul =>
      refine operated_of_popped (fun _ _ => id) ?_ (proceed_mul here fine)
      rw [Operator.value, Int.mul_comm]
    | div => exact operated_div here fine
    | compare comparison =>
      refine operated_of_popped (fun _ _ => id) ?_ (proceed_compare comparison here fine)
      simp only [Operator.value]
      split <;> rfl
  · intro here
    obtain ⟨_, n, negated⟩ := here.start.negl
    refine ⟨n, negated.proceed_eq, negated.pc, ?_, negated.memory⟩
    rw [negated.registers]
    simp [Word.ofInt, Word.toInt, Int32.ofInt_neg]

/-- A machine that is about to divide the word on its stack by the accumulator. -/
private def dividing (left right : Word) : Machine where
  registers := { esp := 0x1000, eax := right }
  memory := Memory.writeWord {} 0x1000 left
  text := #[⟨.movl, [.full .eax, .full .ecx], 1⟩, ⟨.popl, [.full .eax], 2⟩, ⟨.cdq, [], 3⟩,
    ⟨.idivl, [.full .ecx], 4⟩]

theorem operators_compute_quotients :
    Operated .div (dividing 0xFFFFFFF9 2) (-7) 2 ((dividing 0xFFFFFFF9 2).proceed 4) ∧
    Operated .div (dividing 0x80000000 0xFFFFFFFF) (-0x80000000) (-1)
      ((dividing 0x80000000 0xFFFFFFFF).proceed 4) ∧
    ∃ n, proceed 1 { registers := { eax := 5 }, text := #[⟨.negl, [.full .eax], 1⟩] } = (.ok (), n) ∧
      n.registers.eax = 0xFFFFFFFB := by
  have poised (left right : Word) : Poised {} (Codegen.operator .div) (dividing left right) :=
    ⟨rfl, 0, rfl, ⟨1, _, rfl, rfl⟩, ⟨2, _, rfl, rfl⟩, ⟨3, _, rfl, rfl⟩, ⟨4, _, rfl, rfl⟩, trivial⟩
  have divided (left right : Word) : Operated .div (dividing left right) left.toInt right.toInt
      ((dividing left right).proceed 4) := by
    have operand : (dividing left right).memory.readWord 0x1000 = left :=
      Memory.readWord_writeWord left (by decide)
    have fine : accessible 0x1000 4 = true := by decide
    have computed := (operators_compute {} _).1 .div (poised left right) fine
    change Operated .div _ ((dividing left right).memory.readWord 0x1000).toInt _ _ at computed
    rwa [operand] at computed
  obtain ⟨n, done, _, registers, _⟩ := (operators_compute {}
    { registers := { eax := 5 }, text := #[⟨.negl, [.full .eax], 1⟩] }).2
      ⟨rfl, 0, rfl, ⟨1, _, rfl, rfl⟩, trivial⟩
  exact ⟨divided 0xFFFFFFF9 2, divided 0x80000000 0xFFFFFFFF, n, done, by rw [registers]; decide⟩

end Operators

section Indexing

variable {l : Layout} {origin m : Machine} {count : Nat} {mnemonic name : Bytes} {rest : Code}
  {r : Registers} {memory : Memory} {flags : Flags}

/-- A conditional branch goes to its label if the condition holds. -/
theorem Passed.branch {condition : Condition} {index : Nat}
    (here : Passed l origin count (.instruction mnemonic [Codegen.destination name] :: rest) r memory
      flags m)
    (known : Mnemonic.ofName? mnemonic = some (.jump condition))
    (branch : isBranch mnemonic = true) (labelled : l.label? name = some index) :
    (flags.holds condition = true ∧ ∃ n, origin.proceed (count + 1) = (.ok (), n) ∧
      n.pc = index ∧ n.registers = r ∧ n.memory = memory) ∨
    (flags.holds condition = false ∧ ∃ n, Passed l origin (count + 1) rest r memory flags n) := by
  obtain ⟨rfl, rfl, rfl⟩ := here.contents
  have decodes := instruction_branch known rfl branch (target_of_label labelled)
  have opened (line : Int) :
      perform (Machine.execute ⟨.jump condition, [.target name index], line⟩) m.next =
        perform (if m.flags.holds condition then Exec.setPc index else pure ()) m.next := rfl
  cases holds : m.flags.holds condition with
  | true =>
    obtain ⟨line, fetched⟩ := here.poised.fetched decodes
    have stepped : m.step = (.ok (), { m.next with pc := index }) := by
      rw [step_eq here.poised.running fetched, opened, holds]
      rfl
    refine .inl ⟨rfl, { m.next with pc := index }, ?_, rfl, rfl, rfl⟩
    rw [here.proceeds, proceed_step stepped]
    rfl
  | false =>
    refine .inr ⟨rfl, here.execute decodes fun line => ?_⟩
    rw [opened, holds]
    rfl

theorem exponent?_eq {z : Int} {shift : Nat} (power : Codegen.exponent? z = some shift) :
    z = (2 ^ shift : Nat) := by
  unfold Codegen.exponent? at power
  split at power
  · rename_i exact
    obtain rfl := Option.some.inj power
    rw [← Nat.one_shiftLeft, exact.2, Int.toNat_of_nonneg (by omega)]
  · cases power

/-- Shifting by an exponent is multiplying by the power. -/
theorem shift_eq_mul (w : Word) {shift : Nat} (bound : shift < 32) :
    w <<< (Word.ofInt (Codegen.wrap shift) &&& 31) = w * .ofInt (2 ^ shift : Nat) := by
  have count : (Word.ofInt (Codegen.wrap shift) &&& 31).toNat = shift := by
    have mask : ((shift.toUInt32 : Word) &&& 31).toNat = shift.toUInt32.toNat % 2 ^ 5 := by
      rw [UInt32.toNat_and]
      exact Nat.and_two_pow_sub_one_eq_mod _ 5
    rw [ofInt_wrap, Word.ofInt_natCast, mask, Word.toNat_natCast (by omega)]
    omega
  apply UInt32.toNat_inj.mp
  rw [UInt32.toNat_shiftLeft, count, Word.ofInt_natCast, UInt32.toNat_mul, Nat.shiftLeft_eq,
    Nat.mod_eq_of_lt bound]
  simp [Nat.mul_mod]

/-- The accumulator is multiplied by a size: by nothing at all, by a shift or by a product. -/
theorem Passed.scale {z : Int} (small : z < 0x100000000)
    (here : Passed l origin count (Codegen.scaleIndex z ++ rest) r memory flags m) :
    ∃ changed n, Passed l origin (count + (Codegen.scaleIndex z).instructions) rest
      (r.set .eax (r.eax * .ofInt z)) memory changed n := by
  unfold Codegen.scaleIndex at here ⊢
  by_cases one : z = 1
  · rw [if_pos one] at here ⊢
    have same : r.eax * Word.ofInt z = r.eax := by
      rw [one]
      exact UInt32.mul_one _
    rw [same]
    exact ⟨flags, m, here⟩
  rw [if_neg one] at here ⊢
  obtain ⟨rfl, rfl, rfl⟩ := here.contents
  cases power : Codegen.exponent? z with
  | some shift =>
    rw [power] at here
    have value := exponent?_eq power
    have bound : shift < 32 := by
      refine (Nat.pow_lt_pow_iff_right (a := 2) (by decide)).mp ?_
      omega
    rw [value, ← shift_eq_mul _ bound]
    exact ⟨_, here.execute (instruction_two rfl rfl rfl rfl rfl) fun line => rfl⟩
  | none =>
    rw [power] at here
    have product (v w : Word) : v * w = .ofInt (v.toInt * w.toInt) := by
      simp [Word.ofInt, Word.toInt, Int32.ofInt_mul]
    rw [product, ← ofInt_wrap z]
    exact ⟨_, here.execute (fun number => rfl) fun line => rfl⟩

theorem Passed.addIndex
    (here : Passed l origin count (Codegen.addIndex ++ rest) r memory flags m) :
    ∃ changed n, Passed l origin (count + 1) rest (r.set .esi (r.esi + r.eax)) memory changed
      n := by
  obtain ⟨rfl, rfl, rfl⟩ := here.contents
  exact ⟨_, here.execute (instruction_two rfl rfl rfl rfl rfl) fun line =>
    execute_arithmetic read_register read_register write_register⟩

/-- The carry of a comparison tells whether a word is below another. -/
theorem aboveEqual_ofSub (a b : Word) : (Flags.ofSub a b).holds .aboveEqual = decide (b ≤ a) := by
  rw [Bool.eq_iff_iff]
  simp [Flags.holds, Flags.ofSub, Flags.withResult]

/-- A length below 2³¹ is at most an index, without signs, if the signed index is not inside it. -/
theorem le_iff_outside {length index : Word} (short : length.toNat < 0x80000000) :
    length ≤ index ↔ index.toInt < 0 ∨ length.toInt ≤ index.toInt := by
  have bound := index.toNat_lt
  rw [UInt32.le_iff_toNat_le, Word.toInt_eq, Word.toInt_eq, if_pos short]
  split <;> omega

theorem Poised.check {handler : Nat} {code : Code}
    (here : Poised l (Codegen.boundsCheck ++ code) m)
    (handled : l.label? Codegen.boundsLabel = some handler)
    (readable : accessible m.registers.esi 4 = true) :
    (m.memory.readWord m.registers.esi ≤ m.registers.eax ∧ ∃ n, m.proceed 2 = (.ok (), n) ∧
      n.pc = handler ∧ n.registers = m.registers ∧ n.memory = m.memory) ∨
    (m.registers.eax < m.memory.readWord m.registers.esi ∧
      ∃ flags n, Passed l m 2 code m.registers m.memory flags n) := by
  obtain ⟨_, compared⟩ := here.start.cmpl rfl rfl
    (read_memory (a := m.registers.esi) (UInt32.add_zero _) readable) read_register
  have carry := aboveEqual_ofSub m.registers.eax (m.memory.readWord m.registers.esi)
  rcases compared.branch rfl rfl handled with
    ⟨taken, jumped⟩ | ⟨passed, onward⟩
  · exact .inl ⟨of_decide_eq_true (carry.symm.trans taken), jumped⟩
  · exact .inr ⟨UInt32.not_le.mp (of_decide_eq_false (carry.symm.trans passed)), _, onward⟩

/-- Code that selects an element checks the index against the header and scales it by the size. It
goes to the handler, with the index and the pointer as they were, exactly if the index is not below
the length; otherwise the pointer moves by the product. For every size, the scaling alone multiplies
the accumulator. -/
theorem indexing_checks_and_scales {l : Layout} {m : Machine} {z : Int} {handler : Nat}
    (positive : 0 < z) (small : z < 0x100000000)
    (handled : l.label? Codegen.boundsLabel = some handler)
    (here : Poised l (Codegen.boundsCheck ++ (Codegen.scaleIndex z ++ Codegen.addIndex)) m)
    (readable : accessible m.registers.esi 4 = true) :
    (m.memory.readWord m.registers.esi ≤ m.registers.eax →
      ∃ n, m.proceed 2 = (.ok (), n) ∧ n.pc = handler ∧ n.registers = m.registers ∧
        n.memory = m.memory) ∧
    (m.registers.eax < m.memory.readWord m.registers.esi →
      ∃ n, m.proceed (3 + (Codegen.scaleIndex z).instructions) = (.ok (), n) ∧
        n.pc = m.pc + 3 + (Codegen.scaleIndex z).instructions ∧
        n.registers.esi = m.registers.esi + (m.registers.eax.toNat * z.toNat).toUInt32 ∧
        n.memory = m.memory) ∧
    ((m.memory.readWord m.registers.esi).toNat < 0x80000000 →
      (m.memory.readWord m.registers.esi ≤ m.registers.eax ↔ m.registers.eax.toInt < 0 ∨
        (m.memory.readWord m.registers.esi).toInt ≤ m.registers.eax.toInt)) ∧
    ∀ k : Machine, Poised l (Codegen.scaleIndex z) k →
      ∃ n, k.proceed (Codegen.scaleIndex z).instructions = (.ok (), n) ∧
        n.registers = k.registers.set .eax (k.registers.eax.toNat * z.toNat).toUInt32 ∧
        n.memory = k.memory := by
  have product (w : Word) : w * .ofInt z = (w.toNat * z.toNat).toUInt32 := by
    have whole : z = (z.toNat : Int) := (Int.toNat_of_nonneg (by omega)).symm
    rw [whole, Word.ofInt_natCast, Int.toNat_natCast]
    apply UInt32.toNat_inj.mp
    simp [UInt32.toNat_mul, Nat.mul_mod]
  refine ⟨fun outside => ?_, fun inside => ?_, le_iff_outside, fun k here => ?_⟩
  · rcases here.check handled readable with ⟨_, jumped⟩ | ⟨inside, _⟩
    · exact jumped
    · exact absurd outside (UInt32.not_le.mpr inside)
  · rcases here.check handled readable with ⟨outside, _⟩ | ⟨_, _, _, passed⟩
    · exact absurd outside (UInt32.not_le.mpr inside)
    obtain ⟨_, _, scaled⟩ := passed.scale small
    obtain ⟨_, n, moved⟩ := scaled.addIndex
    have count : 2 + (Codegen.scaleIndex z).instructions + 1 =
        3 + (Codegen.scaleIndex z).instructions := by omega
    have done := moved.proceed_eq
    have pc := moved.pc
    rw [count] at done pc
    refine ⟨n, done, by rw [pc]; push_cast; omega, ?_, moved.memory⟩
    rw [moved.registers, ← product]
    rfl
  · rw [← List.append_nil (Codegen.scaleIndex z)] at here
    obtain ⟨_, n, scaled⟩ := here.start.scale small
    have done := scaled.proceed_eq
    rw [Nat.zero_add] at done
    refine ⟨n, done, ?_, scaled.memory⟩
    rw [scaled.registers, product]

/-- A machine that is about to select the element of an index, where elements have twelve bytes. -/
private def selecting (index : Word) : Machine where
  registers := { esi := 0x1000, eax := index }
  memory := Memory.writeWord {} 0x1000 3
  text := #[⟨.cmpl, [.at 0 .esi, .full .eax], 1⟩,
    ⟨.jump .aboveEqual, [.target Codegen.boundsLabel 9], 2⟩,
    ⟨.imull, [.immediate 12, .full .eax], 3⟩, ⟨.arithmetic .add, [.full .eax, .full .esi], 4⟩]

theorem indexing_checks_and_scales_records :
    (∃ n, (selecting 2).proceed 4 = (.ok (), n) ∧ n.registers.esi = 0x1018) ∧
    ∃ n, (selecting 0xFFFFFFFF).proceed 2 = (.ok (), n) ∧ n.pc = 9 := by
  have poised (index : Word) : Poised { labels := [(Codegen.boundsLabel, 9)] }
      (Codegen.boundsCheck ++ (Codegen.scaleIndex 12 ++ Codegen.addIndex)) (selecting index) :=
    ⟨rfl, 0, rfl, ⟨1, _, rfl, rfl⟩, ⟨2, _, rfl, rfl⟩, ⟨3, _, rfl, rfl⟩, ⟨4, _, rfl, rfl⟩, trivial⟩
  have length (index : Word) : (selecting index).memory.readWord 0x1000 = 3 :=
    Memory.readWord_writeWord 3 (by decide)
  have inside : (2 : Word) < (selecting 2).memory.readWord 0x1000 := by
    rw [length]
    decide
  have outside : (selecting 0xFFFFFFFF).memory.readWord 0x1000 ≤ (0xFFFFFFFF : Word) := by
    rw [length]
    decide
  obtain ⟨n, done, _, esi, _⟩ := (indexing_checks_and_scales (by decide) (by decide) rfl (poised 2)
    (by decide)).2.1 inside
  obtain ⟨k, jumped, pc, _⟩ := (indexing_checks_and_scales (by decide) (by decide) rfl
    (poised 0xFFFFFFFF) (by decide)).1 outside
  exact ⟨⟨n, done, esi.trans (by decide)⟩, k, jumped, pc⟩

end Indexing

end Machine

end Onepass
