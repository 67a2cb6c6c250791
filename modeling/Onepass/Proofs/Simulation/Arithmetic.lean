import Onepass.Proofs.Simulation.Outcome

/-! Literals, variables and operators: the code of each computes its value. -/
namespace Onepass.Simulation

open Assembly (Code)
open Interpreter (Value State Eval Cell)
open Machine

section

variable {P : Setting} {s : State} {blocks : Ledger} {words : List Word} {rest code : Code}
  {goal : Ledger → Machine → Prop} {m : Machine}

/-- The flags of a subtraction decide every comparison. -/
theorem compares_ofSub (comparison : Comparison) (a b : Word) :
    (Flags.ofSub a b).compares comparison = Interpreter.holds comparison a.toInt b.toInt := by
  have less := Flags.less_ofSub a b
  have zero := Flags.zero_ofSub a b
  have notLess : ((Flags.ofSub a b).sign == (Flags.ofSub a b).overflow) =
      !decide (a.toInt < b.toInt) := by
    rw [← less, bne, Bool.not_not]
  cases comparison with
  | less => exact less
  | equal => exact zero
  | notEqual =>
    rw [Flags.compares, zero]
    simp [Interpreter.holds]
  | greaterEqual =>
    rw [Flags.compares, notLess, Bool.eq_iff_iff]
    simp [Interpreter.holds]
  | lessEqual =>
    rw [Flags.compares, less, zero, Bool.eq_iff_iff]
    simp only [Interpreter.holds, Bool.or_eq_true, decide_eq_true_eq]
    omega
  | greater =>
    rw [Flags.compares, notLess, zero, Bool.eq_iff_iff]
    simp only [Interpreter.holds, Bool.and_eq_true, Bool.not_eq_true', decide_eq_false_iff_not,
      decide_eq_true_eq]
    omega

/-- The register of a type as code names it. -/
def resultOperand (shape : Shape) : Assembly.Operand :=
  if shape.isHeap then Codegen.esi else Codegen.eax

theorem operand_result {l : Assembly.Layout} (shape : Shape) :
    l.operand (resultOperand shape) = .ok (.full (resultRegister shape)) := by
  cases shape <;> rfl

theorem resultRegister_ne (shape : Shape) :
    resultRegister shape ≠ .esp ∧ resultRegister shape ≠ .ebp := by
  cases shape <;> simp [resultRegister, Shape.isHeap]

theorem resultRegister_ne_edx (shape : Shape) : resultRegister shape ≠ .edx := by
  unfold resultRegister
  split <;> decide

theorem load_eq (shape : Shape) (slot : Int) :
    Codegen.load (.ofShape shape) slot =
      [.instruction "movl" [Codegen.slotOperand slot, resultOperand shape]] := by
  cases shape <;> rfl

theorem store_eq (shape : Shape) (slot : Int) :
    Codegen.store (.ofShape shape) slot =
      [.instruction "movl" [resultOperand shape, Codegen.slotOperand slot]] := by
  cases shape <;> rfl

/-- A word that is loaded into a register. -/
theorem leads_load {x : Operand} {v : Word} {a b : Assembly.Operand} {t : Register}
    (matched : Matches P s blocks words m)
    (before : Before P (.instruction "movl" [a, b] :: rest) m)
    (source : P.layout.operand a = .ok x) (target : P.layout.operand b = .ok (.full t))
    (reads : Readable P blocks m.registers m.memory x v) (other : t ≠ .esp ∧ t ≠ .ebp)
    (onward : ∀ n, Matches P s blocks words n → Before P rest n →
      n.registers = m.registers.set t v → Leads P.Watch goal blocks n) :
    Leads P.Watch goal blocks m := by
  refine (At.start matched.ready before).movl source target reads (writable_register t v)
    fun n there => onward n (there.keeps matched ?_ ?_) there.before there.registers
  · exact (Registers.get_set m.registers t .ebp v).trans (if_neg other.2)
  · exact (Registers.get_set m.registers t .esp v).trans (if_neg other.1)

theorem computes_int (value : Int32) :
    Computes P (Codegen.loadInt value) .int (pure (.int value)) := by
  intro s blocks words rest m matched before
  refine leads_load matched before rfl rfl (readable_constant value.toInt) (by decide)
    fun n matched before there => leads_value matched before ?_
  rw [there, Word.ofInt_toInt]
  exact .int value

theorem computes_char {value : Int32} (byte : value.toUInt32.toNat < 256) :
    Computes P (Codegen.loadInt value) .char (pure (.char value.toUInt32.toUInt8)) := by
  intro s blocks words rest m matched before
  have whole : value.toUInt32.toUInt8.toUInt32 = value.toUInt32 := by
    apply UInt32.toNat_inj.mp
    rw [UInt8.toNat_toUInt32, UInt32.toNat_toUInt8]
    omega
  refine leads_load matched before rfl rfl (readable_constant value.toInt) (by decide)
    fun n matched before there => leads_value matched before ?_
  have held : Represents P s.heap blocks .char (.char value.toUInt32.toUInt8)
      value.toUInt32.toUInt8.toUInt32 := .char _
  rw [whole] at held
  rw [there, Word.ofInt_toInt]
  exact held

theorem computes_string {index : Nat} {contents : Bytes} (valid : P.Valid)
    (known : P.strings[index]? = some contents) :
    Computes P (Codegen.loadAddress (Codegen.Builder.stringLabel index)) .string
      (pure (.text (some contents))) := by
  intro s blocks words rest m matched before
  obtain ⟨a, placed, _⟩ := valid.string known
  have source : P.layout.operand (Codegen.address (Codegen.Builder.stringLabel index)) =
      .ok (.immediate a.toInt32) := by
    simp only [Codegen.address, Assembly.Layout.operand, Assembly.Layout.value, placed]
    rfl
  refine leads_load matched before source rfl (readable_immediate a.toInt32) (by decide)
    fun n matched before there => leads_value matched before ?_
  rw [there]
  exact .text known placed

/-- The slot of a variable is read. -/
theorem computes_variable {name : Bytes} {shape : Shape} {i : Nat}
    (known : P.locals[i]? = some (name, shape)) :
    Computes P (Codegen.load (.ofShape shape) i) shape
      (do return (← get).binding name) := by
  intro s blocks words rest m matched before
  have bound := (List.getElem?_eq_some_iff.mp known).1
  obtain ⟨low, place, whole⟩ := matched.top
  have slot := toNat_slotAddress i
  have reads : Readable P blocks m.registers m.memory
      (.at (Int32.ofInt (Codegen.wrap (Codegen.frameOffset i))) .ebp)
      (m.memory.readWord (slotAddress i)) :=
    readable_stack low (matched.slot_place bound) (by omega) (by omega)
  have held := matched.stored.slot known
  have opened : perform (do return (← get).binding name : Eval Value) s =
      (.ok (s.binding name), s) := rfl
  rw [opened]
  rw [load_eq] at before
  refine leads_load matched before rfl (operand_result shape) reads (resultRegister_ne shape)
    fun n matched before there => leads_value matched before ?_
  rw [there, Registers.get_set, if_pos rfl]
  exact held

theorem computes_negate {action : Eval Value} (operand : Computes P code .int action) :
    Computes P (code ++ Codegen.negate) .int (do
      match ← action with
      | .int n => return .int (-n)
      | _ => throw .stuck) := by
  intro s blocks words rest m matched before
  rw [List.append_assoc] at before
  refine operand.andThen matched before .stopped fun v after later n matched before held grows => ?_
  generalize word : n.registers.get (resultRegister .int) = w at held
  cases held with
  | int value =>
    refine (At.start matched.ready before).negl fun o there => .here ?_
    refine .value (there.keeps matched rfl rfl) there.before ?_ grows
    have same : -n.registers.eax = (-value).toUInt32 := by
      have eax : n.registers.eax = value.toUInt32 := word
      rw [eax, Int32.toUInt32_neg]
    rw [there.registers]
    exact same ▸ .int (-value)

/-- The operand on top of the stack. -/
theorem readable_top {w : Word} (matched : Matches P s blocks (w :: words) m) :
    Readable P blocks m.registers m.memory (.at 0 .esp) w := by
  obtain ⟨read, bound, _⟩ := matched.stack.top
  obtain ⟨low, _, whole⟩ := matched.top
  have address : m.registers.get .esp + (0 : Int32).toUInt32 = m.registers.esp :=
    UInt32.add_zero _
  have reads : Readable P blocks m.registers m.memory (.at 0 .esp)
      (m.memory.readWord m.registers.esp) :=
    readable_stack low address (le_refl _) (by omega)
  rwa [read] at reads

/-- An operation on the operand on top of the stack and the accumulator, whose result is popped. -/
theorem leads_combine {operation : Arithmetic} {mnemonic : Bytes} {a : Word}
    (matched : Matches P s blocks (a :: words) m)
    (before : Before P ([.instruction mnemonic [Codegen.eax, Codegen.stackTop],
      .instruction "popl" [Codegen.eax]] ++ rest) m)
    (known : Mnemonic.ofName? mnemonic = some (.arithmetic operation))
    (plain : isBranch mnemonic = false)
    (onward : ∀ n, Matches P s blocks words n → Before P rest n →
      n.registers.eax = (operation.apply a m.registers.eax).1 → Leads P.Watch goal blocks n) :
    Leads P.Watch goal blocks m := by
  obtain ⟨_, bound, _⟩ := matched.stack.top
  obtain ⟨low, place, whole⟩ := matched.top
  have address : m.registers.get .esp + (0 : Int32).toUInt32 = m.registers.esp :=
    UInt32.add_zero _
  refine (At.start matched.ready before).arithmetic known plain rfl rfl
    (readable_register .eax) (readable_top matched)
    (writable_stack low address (le_refl _) (by omega) matched.ready.tidy _) fun n there => ?_
  generalize result : (operation.apply a (m.registers.get .eax)).1 = value at there
  have small := frameBottom_le P
  simp only [memorySize] at small
  have above : Memory.Same (m.registers.esp.toNat + 4) P.frameBottom m.memory
      (m.memory.writeWord m.registers.esp value) :=
    Memory.same_writeWord value (by omega) (by omega)
  have rest := matched.stack.pop
  have next := matched.stack.top.2.2
  refine there.popl rfl (by omega) fun o there => ?_
  have read : (m.memory.writeWord m.registers.esp value).readWord m.registers.esp = value :=
    Memory.readWord_writeWord value (by omega)
  rw [read] at there
  refine onward o (there.matches matched rfl (rest.same (by rw [next]; exact above))
    (matched.stored.write_stack matched.fits low (by omega) value) rfl) there.before ?_
  rw [there.registers]
  exact result.symm

/-- The words on top of the stack are dropped. -/
theorem At.drop {n : Machine} {r : Registers} {memory : Memory} {flags : Flags} (count : Nat)
    (here : At P blocks m (Codegen.dropWords count :: rest) r memory flags n)
    (onward : ∀ flags n, At P blocks m rest (r.set .esp (r.esp + (count * wordSize).toUInt32)) memory
      flags n → Leads P.Watch goal blocks n) : Leads P.Watch goal blocks n := by
  have sum : Word.ofInt (count * wordSize : Nat) = (count * wordSize).toUInt32 :=
    Word.ofInt_natCast _
  have reads : Readable P blocks r memory
      (.immediate (Int32.ofInt (Codegen.wrap (count * wordSize : Nat))))
      (count * wordSize).toUInt32 := sum ▸ readable_constant _
  exact At.arithmetic here rfl rfl rfl rfl reads (readable_register .esp)
    (writable_register .esp _) (onward _)

theorem leads_mul {a : Word} (matched : Matches P s blocks (a :: words) m)
    (before : Before P (Codegen.popMul ++ rest) m)
    (onward : ∀ n, Matches P s blocks words n → Before P rest n →
      n.registers.eax = .ofInt (m.registers.eax.toInt * a.toInt) → Leads P.Watch goal blocks n) :
    Leads P.Watch goal blocks m :=
  (At.start matched.ready before).imull rfl (readable_top matched) fun _ there =>
    At.drop 1 there fun _ o there => onward o
      (there.matches matched rfl matched.stack.pop matched.stored rfl) there.before
      (by rw [there.registers]; rfl)

/-- The accumulator becomes one or zero by a comparison. -/
theorem leads_compare {a : Word} (comparison : Comparison)
    (matched : Matches P s blocks (a :: words) m)
    (before : Before P (Codegen.popCompare comparison.suffix ++ rest) m)
    (onward : ∀ n, Matches P s blocks words n → Before P rest n →
      n.registers.eax = (Interpreter.ofBool
        (Interpreter.holds comparison a.toInt m.registers.eax.toInt)).toUInt32 →
      Leads P.Watch goal blocks n) : Leads P.Watch goal blocks m := by
  have known : Mnemonic.ofName? ("set" ++ comparison.suffix) = some (.set comparison) := by
    cases comparison <;> rfl
  have plain : isBranch ("set" ++ comparison.suffix) = false := rfl
  refine (At.start matched.ready before).cmpl rfl rfl (readable_register .eax)
    (readable_top matched) fun _ there => there.set known plain fun _ there =>
    there.movzbl_al fun _ there => At.drop 1 there fun _ o there => onward o
      (there.matches matched rfl matched.stack.pop matched.stored rfl) there.before ?_
  rw [there.registers]
  refine (congrArg UInt8.toUInt32 (Word.toUInt8_insert ..)).trans ?_
  rw [compares_ofSub]
  change _ = (Interpreter.ofBool (Interpreter.holds comparison a.toInt
    (m.registers.get .eax).toInt)).toUInt32
  cases Interpreter.holds comparison a.toInt (m.registers.get .eax).toInt <;> rfl

/-- Extending the sign of a word to another keeps its value. -/
theorem wideInt_sign (a : Word) :
    wideInt (if a.isNegative then 0xFFFFFFFF else 0) a = a.toInt := by
  have bound := a.toNat_lt
  have ones : (0xFFFFFFFF : Word).toInt = -1 := by decide
  have zero : (0 : Word).toInt = 0 := by decide
  rw [Word.isNegative_eq, wideInt, Word.toInt_eq a]
  by_cases negative : 0x80000000 ≤ a.toNat
  · rw [if_pos (by simpa using negative), if_neg (by omega), ones]
    omega
  · rw [if_neg (by simpa using negative), if_pos (by omega), zero]
    omega

/-- A division fails, or leaves the quotient in the accumulator. -/
theorem At.idivl {n : Machine} {r : Registers} {memory : Memory} {flags : Flags} {quotient : Int}
    (here : At P blocks m (.instruction "idivl" [Codegen.ecx] :: rest) r memory flags n)
    (divided : quotient = (wideInt r.edx r.eax).tdiv r.ecx.toInt)
    (zero : r.ecx = 0 → ∀ i, P.Watch blocks n →
      n.step = (.error ⟨.divisionByZero, some i⟩, n.next) → Leads P.Watch goal blocks n)
    (overflow : r.ecx ≠ 0 → (Word.ofInt quotient).toInt ≠ quotient → ∀ i, P.Watch blocks n →
      n.step = (.error ⟨.quotientOverflow, some i⟩, n.next) → Leads P.Watch goal blocks n)
    (onward : r.ecx ≠ 0 → (Word.ofInt quotient).toInt = quotient → ∀ edx o,
      At P blocks m rest ((r.set .eax (.ofInt quotient)).set .edx edx) memory flags o →
      Leads P.Watch goal blocks o) : Leads P.Watch goal blocks n := by
  have decodes : ∀ number, P.layout.instruction number ⟨"idivl", [Codegen.ecx]⟩ =
      .ok ⟨.idivl, [.full .ecx], number⟩ := instruction_one rfl (by decide) rfl rfl
  have quiet (line : Int) : Instr.accesses ⟨.idivl, [.full .ecx], line⟩ n = [] := rfl
  have reads : perform (Exec.read (.full .ecx)) n.next = (.ok r.ecx, n.next) := by
    rw [← here.registers]
    rfl
  have opened (line : Int) := (@execute_idivl n.next line _ _ reads).trans (perform_divideWide _)
  simp only [next_registers, here.registers, ← divided] at opened
  by_cases none : r.ecx = 0
  · have done (line : Int) : perform (Machine.execute ⟨.idivl, [.full .ecx], line⟩) n.next =
        (.error .divisionByZero, n.next) := by
      rw [opened line, if_pos none]
    obtain ⟨watched, i, stopped⟩ := here.fault decodes (by decide) (by decide) (by decide)
      (fun _ _ line => by simp [quiet]) done
    exact zero none i watched stopped
  · by_cases fits : (Word.ofInt quotient).toInt = quotient
    · refine here.silent decodes (by decide) (by decide) quiet (fun line => ?_)
        (onward none fits (.ofInt ((wideInt r.edx r.eax).tmod r.ecx.toInt)))
      rw [opened line, if_neg none, if_neg (not_not.mpr fits), ← here.flags]
      rfl
    · have done (line : Int) : perform (Machine.execute ⟨.idivl, [.full .ecx], line⟩) n.next =
          (.error .quotientOverflow, n.next) := by
        rw [opened line, if_neg none, if_pos fits]
      obtain ⟨watched, i, stopped⟩ := here.fault decodes (by decide) (by decide) (by decide)
        (fun _ _ line => by simp [quiet]) done
      exact overflow none fits i watched stopped

theorem perform_operate_div (x y : Int32) (s : State) :
    perform (Interpreter.operate .div (.int x) (.int y)) s =
      if y = 0 then (.error .divisionByZero, s)
      else if (Int32.ofInt (x.toInt.tdiv y.toInt)).toInt = x.toInt.tdiv y.toInt then
        (.ok (.int (Int32.ofInt (x.toInt.tdiv y.toInt))), s)
      else (.error .quotientOverflow, s) := by
  simp only [Interpreter.operate, Interpreter.divide]
  split
  · rfl
  · split
    · rfl
    · rfl

theorem leads_div {x y : Int32} (matched : Matches P s blocks (x.toUInt32 :: words) m)
    (before : Before P (Codegen.popDiv ++ rest) m) (right : m.registers.get .eax = y.toUInt32) :
    Leads P.Watch (Computed P s blocks words rest .int
      (perform (Interpreter.operate .div (.int x) (.int y)) s)) blocks m := by
  obtain ⟨read, bound, _⟩ := matched.stack.top
  obtain ⟨_, _, whole⟩ := matched.top
  have zero : m.registers.get .eax = 0 ↔ y = 0 := by
    rw [right]
    refine ⟨fun none => ?_, fun none => by rw [none]; rfl⟩
    simpa using congrArg UInt32.toInt32 none
  rw [perform_operate_div]
  refine (At.start matched.ready before).movl rfl rfl (readable_register .eax)
    (writable_register .ecx _) fun _ there =>
      there.popl rfl (show m.registers.esp.toNat + 4 ≤ memorySize by omega) fun _ there =>
        there.cdq fun o there => ?_
  have quotient : x.toInt.tdiv y.toInt = (wideInt
      (if (m.memory.readWord m.registers.esp).isNegative then 0xFFFFFFFF else 0)
      (m.memory.readWord m.registers.esp)).tdiv (m.registers.get .eax).toInt := by
    rw [wideInt_sign, read, right, Word.toInt_toUInt32, Word.toInt_toUInt32]
  refine there.idivl quotient (fun none i watched stopped => ?_)
    (fun some wide i watched stopped => ?_) fun some fits edx o there => ?_
  · rw [if_pos (zero.mp none)]
    exact .here (.stopped (there.fails matched.output watched stopped (.divisionByZero i)))
  · rw [if_neg (fun none => some (zero.mpr none)), if_neg (by rwa [Word.toInt_ofInt] at wide)]
    exact .here (.stopped (there.fails matched.output watched stopped (.quotientOverflow i)))
  · rw [if_neg (fun none => some (zero.mpr none)), if_pos (by rwa [Word.toInt_ofInt] at fits)]
    refine leads_value (there.matches matched rfl matched.stack.pop matched.stored rfl)
      there.before ?_
    rw [there.registers]
    exact .int _

/-- The types of the operands of an operator. -/
def Operands (operator : Operator) (shape : Shape) : Prop :=
  shape = .int ∨ shape = .char ∧ ∃ comparison, operator = .compare comparison

/-- An operator combines the operand on top of the stack with the accumulator. -/
theorem leads_operator {operator : Operator} {shape : Shape} {a b : Word} {x y : Value}
    (fine : Operands operator shape) (matched : Matches P s blocks (a :: words) m)
    (before : Before P (Codegen.operator operator ++ rest) m)
    (left : Represents P s.heap blocks shape x a) (right : Represents P s.heap blocks shape y b)
    (eax : m.registers.get .eax = b) :
    Leads P.Watch (Computed P s blocks words rest .int
      (perform (Interpreter.operate operator x y) s)) blocks m := by
  rcases fine with rfl | ⟨rfl, comparison, rfl⟩
  · cases left with | int x =>
    cases right with | int y =>
    cases operator with
    | add =>
      refine leads_combine matched before rfl rfl fun n matched before there =>
        leads_value matched before ?_
      have sum : n.registers.get .eax = (x + y).toUInt32 := by
        rw [Int32.toUInt32_add, ← eax]
        exact there
      exact sum ▸ .int _
    | sub =>
      refine leads_combine matched before rfl rfl fun n matched before there =>
        leads_value matched before ?_
      have difference : n.registers.get .eax = (x - y).toUInt32 := by
        rw [Int32.toUInt32_sub, ← eax]
        exact there
      exact difference ▸ .int _
    | mul =>
      refine leads_mul matched before fun n matched before there =>
        leads_value matched before ?_
      have product : n.registers.get .eax = (x * y).toUInt32 := by
        refine there.trans ?_
        change Word.ofInt ((m.registers.get .eax).toInt * _) = _
        rw [eax, Word.toInt_toUInt32, Word.toInt_toUInt32, Word.ofInt, Int32.ofInt_mul,
          Int32.ofInt_toInt, Int32.ofInt_toInt, Int32.mul_comm]
      exact product ▸ .int _
    | div => exact leads_div matched before eax
    | compare comparison =>
      refine leads_compare comparison matched before fun n matched before there =>
        leads_value matched before ?_
      change n.registers.get .eax = (Interpreter.ofBool (Interpreter.holds comparison _
        (m.registers.get .eax).toInt)).toUInt32 at there
      rw [eax, Word.toInt_toUInt32, Word.toInt_toUInt32] at there
      exact there ▸ .int _
  · cases left with | char x =>
    cases right with | char y =>
    refine leads_compare comparison matched before fun n matched before there =>
      leads_value matched before ?_
    have small (c : UInt8) : Word.toInt c.toUInt32 = c.toNat := by
      have bound := c.toNat_lt
      rw [Word.toInt_eq, UInt8.toNat_toUInt32, if_pos (by omega)]
    change n.registers.get .eax = (Interpreter.ofBool (Interpreter.holds comparison _
      (m.registers.get .eax).toInt)).toUInt32 at there
    rw [eax, small, small] at there
    exact there ▸ .int _

/-- Both operands are computed, the left one first, and then combined. -/
theorem computes_binary {operator : Operator} {shape : Shape} {first second : Code}
    {left right : Eval Value} (fine : Operands operator shape)
    (one : Computes P first shape left) (two : Computes P second shape right) :
    Computes P (first ++ Codegen.pushScalar ++ second ++ Codegen.operator operator) .int (do
      let a ← left
      let b ← right
      Interpreter.operate operator a b) := by
  intro s blocks words rest m matched before
  have scalar : resultRegister shape = .eax := by
    rcases fine with rfl | ⟨rfl, _⟩ <;> rfl
  simp only [List.append_assoc] at before
  refine one.andThen matched before .stopped fun x _ _ n matched before held grows => ?_
  refine leads_push matched before rfl (readable_register .eax) rfl fun o matched before => ?_
  refine two.andThen matched before .stopped fun y _ _ n matched before right more => ?_
  rw [scalar] at held right
  exact (leads_operator fine matched before (held.grow more) right rfl).mono
    fun _ _ computed => computed.grow (grows.trans more)

end

end Onepass.Simulation
