import Onepass.Machine.Run
import Onepass.Proofs.Action
import Onepass.Proofs.Machine.Memory

/-! The memory accesses of an instruction. They are read off the instruction and the state it is
executed in, and they are all there is: a step changes no byte that none of its writes touches. -/
namespace Onepass.Machine

/-- Bytes that are read or written at once. -/
structure Access where
  address : Word
  size : Nat
  isWrite : Bool
deriving DecidableEq

/-- Whether a byte is among those of an access. -/
def Access.Touches (a : Access) (byte : Word) : Prop :=
  a.address.toNat ≤ byte.toNat ∧ byte.toNat < a.address.toNat + a.size

/-- The accesses up to the first that fails; an instruction does not go on after it. -/
def upToFault : List Access → List Access
  | [] => []
  | a :: rest => a :: if accessible a.address a.size then upToFault rest else []

/-- The value of a register by its name in an instruction. -/
def register? (m : Machine) : RegisterName → Option Word
  | .full r => some (m.registers.get r)
  | .al => some (m.registers.eax &&& 0xFF)
  | .unknown _ => none

/-- The address that a memory operand denotes. -/
def Operand.address? (m : Machine) (o : Operand) : Option Word :=
  match o.mode with
  | .memory offset none => some offset.toUInt32
  | .memory offset (some base) => (m.register? base).map (· + offset.toUInt32)
  | _ => none

/-- The access to an operand, if it lies in memory. -/
def Operand.accesses (m : Machine) (size : Nat) (isWrite : Bool) (o : Operand) : List Access :=
  (o.address? m).toList.map fun address => ⟨address, size, isWrite⟩

/-- The bytes that are read from an address to the next zero byte, at most `fuel` of them. -/
def textAccesses (m : Machine) : (fuel : Nat) → Word → List Access
  | 0, _ => []
  | fuel + 1, address =>
    ⟨address, 1, false⟩ ::
      if m.memory.read address = 0 then [] else m.textAccesses fuel (address + 1)

/-- The accesses that read a text. -/
def readAccesses (m : Machine) (address : Word) : List Access :=
  m.textAccesses (memorySize + 1 - address.toNat) address

namespace Routine

/-- Where an argument lies. -/
def argumentAddress (m : Machine) (index : Nat) : Word :=
  m.registers.esp + (4 * index).toUInt32

/-- The access to an argument. -/
def argumentAccess (m : Machine) (index : Nat) : Access := ⟨argumentAddress m index, 4, false⟩

/-- The accesses that replace the conversions of a format. -/
def expandAccesses (m : Machine) : (next : Nat) → (format : Bytes) → List Access
  | _, [] => []
  | next, b :: rest =>
    if b = Bytes.code '%' then
      match rest with
      | [] => []
      | letter :: rest =>
        if letter = Bytes.code '%' then expandAccesses m next rest
        else
          argumentAccess m next ::
            ((if letter = Bytes.code 's' then
                m.readAccesses (m.memory.readWord (argumentAddress m next))
              else []) ++
              expandAccesses m (next + 1) rest)
    else expandAccesses m next rest

/-- The accesses of a routine. -/
def accesses (m : Machine) : Routine → List Access
  | .printf =>
    let format := m.memory.readWord (argumentAddress m 0)
    argumentAccess m 0 ::
      (m.readAccesses format ++ expandAccesses m 1 ((m.readText format).toOption.getD []))
  | .puts =>
    argumentAccess m 0 :: m.readAccesses (m.memory.readWord (argumentAddress m 0))
  | .malloc | .exit => [argumentAccess m 0]
  | .abort => []

end Routine

/-- The access of a push. -/
def pushAccess (m : Machine) : Access := ⟨m.registers.esp - 4, 4, true⟩

/-- The accesses of a call: those of the routine, or the push of the return address. -/
def Destination.accesses (m : Machine) (d : Destination) : List Access :=
  if d.index < 0 then ((Routine.ofSymbol? d.symbol).map (Routine.accesses m)).getD []
  else [m.pushAccess]

namespace Instr

/-- The access to an operand by its index. -/
def operandAccesses (i : Instr) (m : Machine) (index size : Nat) (isWrite : Bool) : List Access :=
  ((i.operands[index]?).map (Operand.accesses m size isWrite)).getD []

/-- The accesses of an instruction in order. -/
def accesses (i : Instr) (m : Machine) : List Access :=
  let read (index size : Nat) := i.operandAccesses m index size false
  let write (index size : Nat) := i.operandAccesses m index size true
  match i.mnemonic with
  | .movl => read 0 4 ++ write 1 4
  | .movb => read 0 1 ++ write 1 1
  | .movzbl => read 0 1 ++ write 1 4
  | .leal => write 1 4
  | .pushl => read 0 4 ++ [m.pushAccess]
  | .popl =>
    let popped := { m with registers := m.registers.set .esp (m.registers.esp + 4) }
    ⟨m.registers.esp, 4, false⟩ :: i.operandAccesses popped 0 4 true
  | .arithmetic _ | .shll => read 0 4 ++ (read 1 4 ++ write 1 4)
  | .cmpl => read 0 4 ++ read 1 4
  | .imull => read 0 4 ++ if i.operands.length = 1 then [] else read 1 4 ++ write 1 4
  | .idivl => read 0 4
  | .negl => read 0 4 ++ write 0 4
  | .set _ => write 0 1
  | .call => ((i.operands[0]?).map fun o => o.destination.accesses m).getD []
  | .ret => [⟨m.registers.esp, 4, false⟩]
  | .leave => [⟨m.registers.ebp, 4, false⟩]
  | .nop | .cdq | .jmp | .jump _ | .unknown _ => []

end Instr

/-- The accesses of the next step in order. -/
def accesses (m : Machine) : List Access :=
  if m.halted then [] else (m.fetch?.map fun i => upToFault (i.accesses m)).getD []

section Footprint

variable {α β : Type} {m : Machine} {action : Exec α} {next : α → Exec β}
  {first rest allowed : List Access}

theorem upToFault_append (fine : ∀ a ∈ first, accessible a.address a.size = true) :
    upToFault (first ++ rest) = first ++ upToFault rest := by
  induction first with
  | nil => rfl
  | cons a others ih =>
    have head := fine a (List.mem_cons_self ..)
    have tail := ih fun b member => fine b (List.mem_cons_of_mem _ member)
    simp [upToFault, head, tail]

/-- Whether an action changes only bytes that the writes among some accesses touch. -/
def Writes (action : Exec α) (m : Machine) (allowed : List Access) : Prop :=
  ∀ byte, (∀ a ∈ upToFault allowed, a.isWrite = true → ¬ a.Touches byte) →
    (perform action m).2.memory.read byte = m.memory.read byte

theorem Writes.of_eq (same : (perform action m).2.memory = m.memory) :
    Writes action m allowed := by
  intro byte _
  rw [same]

/-- After an action that only reads come the accesses of what follows. -/
theorem Writes.read {result : Except Fault α} (looked : perform action m = (result, m))
    (later : ∀ v, result = .ok v → (∀ a ∈ first, accessible a.address a.size = true) ∧
      Writes (next v) m rest) : Writes (action >>= next) m (first ++ rest) := by
  intro byte untouched
  rw [perform_bind, looked]
  cases result with
  | error _ => rfl
  | ok v =>
    obtain ⟨fine, writes⟩ := later v rfl
    rw [upToFault_append fine] at untouched
    exact writes byte fun a member => untouched a (List.mem_append_right _ member)

/-- What an action only looks at does not count for the writes that follow. -/
theorem Writes.look {result : Except Fault α} (looked : perform action m = (result, m))
    (later : ∀ v, result = .ok v → Writes (next v) m allowed) :
    Writes (action >>= next) m allowed := by
  intro byte untouched
  rw [perform_bind, looked]
  cases result with
  | error _ => rfl
  | ok v => exact later v rfl byte untouched

/-- An action that keeps the memory has no writes. -/
theorem Writes.act {v : α} {after : Machine} (done : perform action m = (.ok v, after))
    (same : after.memory = m.memory) (later : Writes (next v) after allowed) :
    Writes (action >>= next) m allowed := by
  intro byte untouched
  rw [perform_bind, done]
  exact (later byte untouched).trans (by rw [same])

theorem perform_look {f : Machine → Except Fault α} :
    perform (Exec.look f) m = (f m, m) := by
  simp only [Exec.look, perform_bind, perform_get]
  cases f m <;> rfl

theorem perform_change {f : Machine → Except Fault Machine} :
    perform (Exec.change f) m =
      match f m with
      | .ok after => (.ok (), after)
      | .error fault => (.error fault, m) := by
  simp only [Exec.change, perform_bind, perform_get]
  cases f m <;> rfl

theorem perform_readRegister (name : RegisterName) :
    ∃ result, perform (Exec.readRegister name) m = (result, m) ∧
      ∀ v, result = .ok v → m.register? name = some v := by
  cases name with
  | full r => exact ⟨_, rfl, by rintro v ⟨⟩; rfl⟩
  | al => exact ⟨_, rfl, by rintro v ⟨⟩; rfl⟩
  | unknown name => exact ⟨_, rfl, by rintro v ⟨⟩⟩

theorem perform_address (o : Operand) :
    ∃ result, perform (Exec.address o) m = (result, m) ∧
      ∀ a, result = .ok a → o.address? m = some a := by
  rcases o with ⟨_ | _ | ⟨offset, _ | base⟩ | _, destination⟩
  · exact ⟨_, rfl, by rintro a ⟨⟩⟩
  · exact ⟨_, rfl, by rintro a ⟨⟩⟩
  · exact ⟨_, rfl, by rintro a ⟨⟩; rfl⟩
  · obtain ⟨result, looked, known⟩ := perform_readRegister (m := m) base
    simp only [Exec.address, perform_bind, looked]
    cases result with
    | error fault => exact ⟨_, rfl, by rintro a ⟨⟩⟩
    | ok v =>
      refine ⟨_, rfl, ?_⟩
      rintro a ⟨⟩
      simp [Operand.address?, known v rfl]
  · exact ⟨_, rfl, by rintro a ⟨⟩⟩

private theorem checkAccess_eq_ok {a : Word} {size : Nat} {v : Unit}
    (fine : checkAccess a size = .ok v) : accessible a size = true := by
  unfold checkAccess at fine
  split at fine
  · assumption
  · cases fine

/-- Looking at an address that an operand denotes. -/
private theorem perform_look_at {size : Nat} {f : Word → Machine → Except Fault α} (o : Operand)
    (checked : ∀ a v, f a m = .ok v → accessible a size = true) :
    ∃ result, perform (Exec.address o >>= fun a => Exec.look (f a)) m = (result, m) ∧
      ∀ v, result = .ok v → ∀ a ∈ o.accesses m size false,
        accessible a.address a.size = true := by
  obtain ⟨result, looked, known⟩ := perform_address (m := m) o
  rw [perform_bind, looked]
  cases result with
  | error fault => exact ⟨_, rfl, by rintro v ⟨⟩⟩
  | ok address =>
    refine ⟨_, perform_look, fun v success => ?_⟩
    simp [Operand.accesses, known address rfl, checked address v success]

private theorem readWord_eq_ok {a v : Word} (success : m.readWord a = .ok v) :
    accessible a 4 = true := by
  obtain ⟨_, fine, _⟩ := bind_eq_ok.mp success
  exact checkAccess_eq_ok fine

private theorem readByte_eq_ok {a : Word} {v : UInt8} (success : m.readByte a = .ok v) :
    accessible a 1 = true := by
  obtain ⟨_, fine, _⟩ := bind_eq_ok.mp success
  exact checkAccess_eq_ok fine

theorem perform_read (o : Operand) :
    ∃ result, perform (Exec.read o) m = (result, m) ∧
      ∀ v, result = .ok v → ∀ a ∈ o.accesses m 4 false, accessible a.address a.size = true := by
  rcases o with ⟨_ | name | _ | _, destination⟩
  · exact ⟨_, rfl, by simp [Operand.accesses, Operand.address?]⟩
  · obtain ⟨result, looked, _⟩ := perform_readRegister (m := m) name
    exact ⟨result, looked, by simp [Operand.accesses, Operand.address?]⟩
  · exact perform_look_at _ fun a v success => readWord_eq_ok success
  · exact ⟨_, rfl, by rintro v ⟨⟩⟩

theorem perform_readByte (o : Operand) :
    ∃ result, perform (Exec.readByte o) m = (result, m) ∧
      ∀ v, result = .ok v → ∀ a ∈ o.accesses m 1 false, accessible a.address a.size = true := by
  rcases o with ⟨_ | name | _ | _, destination⟩
  · exact ⟨_, rfl, by simp [Operand.accesses, Operand.address?]⟩
  · obtain ⟨result, looked, _⟩ := perform_read (m := m) ⟨.register name, destination⟩
    simp only [Exec.readByte, perform_bind, looked]
    cases result <;> exact ⟨_, rfl, by simp [Operand.accesses, Operand.address?]⟩
  · exact perform_look_at _ fun a v success => readByte_eq_ok success
  · exact ⟨_, rfl, by rintro v ⟨⟩⟩

theorem perform_operand (i : Instr) (index : Nat) :
    ∃ result, perform (Exec.operand i index) m = (result, m) ∧
      ∀ o, result = .ok o → i.operands[index]? = some o := by
  unfold Exec.operand
  cases i.operands[index]? with
  | none => exact ⟨_, rfl, by rintro o ⟨⟩⟩
  | some o => exact ⟨_, rfl, by rintro o ⟨⟩; rfl⟩

section

variable {i : Instr} {index : Nat} {o : Operand}

theorem Writes.operand {next : Operand → Exec β}
    (later : ∀ o, i.operands[index]? = some o → Writes (next o) m allowed) :
    Writes (Exec.operand i index >>= next) m allowed := by
  obtain ⟨result, looked, known⟩ := perform_operand (m := m) i index
  exact .look looked fun o success => later o (known o success)

theorem Writes.readOperand {next : Word → Exec β} (known : i.operands[index]? = some o)
    (later : ∀ v, Writes (next v) m rest) :
    Writes (Exec.read o >>= next) m (i.operandAccesses m index 4 false ++ rest) := by
  obtain ⟨result, looked, fine⟩ := perform_read (m := m) o
  refine Writes.read looked fun v success => ⟨?_, later v⟩
  simpa [Instr.operandAccesses, known] using fine v success

theorem Writes.readByteOperand {next : UInt8 → Exec β} (known : i.operands[index]? = some o)
    (later : ∀ v, Writes (next v) m rest) :
    Writes (Exec.readByte o >>= next) m (i.operandAccesses m index 1 false ++ rest) := by
  obtain ⟨result, looked, fine⟩ := perform_readByte (m := m) o
  refine Writes.read looked fun v success => ⟨?_, later v⟩
  simpa [Instr.operandAccesses, known] using fine v success

/-- A change at the address of an operand. -/
private theorem writes_change_at {size : Nat} {f : Word → Machine → Except Fault Machine}
    (changed : ∀ a after, f a m = .ok after → ∀ byte : Word,
      ¬ (Access.mk a size true).Touches byte → after.memory.read byte = m.memory.read byte) :
    Writes (Exec.address o >>= fun a => Exec.change (f a)) m (o.accesses m size true) := by
  intro byte untouched
  obtain ⟨result, looked, known⟩ := perform_address (m := m) o
  rw [perform_bind, looked]
  cases result with
  | error fault => rfl
  | ok address =>
    simp only [perform_change]
    have free : ¬ (Access.mk address size true).Touches byte :=
      untouched _ (by simp [Operand.accesses, known address rfl, upToFault]) rfl
    cases done : f address m with
    | error fault => rfl
    | ok after => exact changed address after done byte free

private theorem read_writeWord_untouched {a value byte : Word} {after : Machine}
    (done : m.writeWord a value = .ok after) (free : ¬ (Access.mk a 4 true).Touches byte) :
    after.memory.read byte = m.memory.read byte := by
  obtain ⟨_, fine, done⟩ := bind_eq_ok.mp done
  cases done
  have fits := checkAccess_eq_ok fine
  have room : a.toNat + 4 ≤ 0x100000000 := by
    simp only [accessible, Bool.and_eq_true, decide_eq_true_eq] at fits
    exact le_trans fits.2 (by decide)
  simp only [Access.Touches, not_and, not_lt] at free
  have same : Memory.Same byte.toNat (byte.toNat + 1) m.memory (m.memory.writeWord a value) := by
    refine Memory.same_writeWord value room ?_
    by_cases below : a.toNat ≤ byte.toNat
    · exact .inl (free below)
    · exact .inr (by omega)
  exact same byte (by omega) (by omega)

private theorem read_writeByte_untouched {a byte : Word} {value : UInt8} {after : Machine}
    (done : m.writeByte a value = .ok after) (free : ¬ (Access.mk a 1 true).Touches byte) :
    after.memory.read byte = m.memory.read byte := by
  obtain ⟨_, fine, done⟩ := bind_eq_ok.mp done
  cases done
  simp only [Access.Touches, not_and, not_lt] at free
  have same : Memory.Same byte.toNat (byte.toNat + 1) m.memory (m.memory.write a value) := by
    refine Memory.same_write value ?_
    by_cases below : a.toNat ≤ byte.toNat
    · exact .inl (free below)
    · exact .inr (by omega)
  exact same byte (by omega) (by omega)

private theorem memory_writeRegister (name : RegisterName) (value : Word) :
    (perform (Exec.writeRegister name value) m).2.memory = m.memory := by
  cases name <;> rfl

theorem writes_write (known : i.operands[index]? = some o) (value : Word) :
    Writes (Exec.write o value) m (i.operandAccesses m index 4 true) := by
  simp only [Instr.operandAccesses, known, Option.map_some, Option.getD_some]
  rcases o with ⟨_ | name | _ | _, destination⟩
  · exact .of_eq rfl
  · exact .of_eq (memory_writeRegister name value)
  · exact writes_change_at fun a after done byte free => read_writeWord_untouched done free
  · exact .of_eq rfl

theorem writes_writeByte (known : i.operands[index]? = some o) (value : UInt8) :
    Writes (Exec.writeByte o value) m (i.operandAccesses m index 1 true) := by
  simp only [Instr.operandAccesses, known, Option.map_some, Option.getD_some]
  rcases o with ⟨_ | name | _ | _, destination⟩
  · exact .of_eq rfl
  · exact .of_eq (memory_writeRegister name _)
  · exact writes_change_at fun a after done byte free => read_writeByte_untouched done free
  · exact .of_eq rfl

theorem writes_push (value : Word) : Writes (Exec.push value) m [m.pushAccess] := by
  intro byte untouched
  have free : ¬ m.pushAccess.Touches byte := untouched _ (by simp [upToFault]) rfl
  have pushed : perform (Exec.push value) m =
      perform (Exec.change (·.writeWord (m.registers.esp - 4) value))
        { m with registers := m.registers.set .esp (m.registers.esp - 4) } := rfl
  rw [pushed, perform_change]
  cases done : Machine.writeWord
      { m with registers := m.registers.set .esp (m.registers.esp - 4) }
      (m.registers.esp - 4) value with
  | error fault => rfl
  | ok after =>
    have kept := read_writeWord_untouched done free
    exact kept

end

theorem perform_output (text : Bytes) :
    perform (Routine.output text) m =
      (.ok ((m.sink.accepted text).length, m.sink.fits text),
        { m with sink := m.sink.write text }) := rfl

theorem perform_pop :
    perform Exec.pop m =
      match m.readWord m.registers.esp with
      | .ok v => (.ok v, { m with registers := m.registers.set .esp (m.registers.esp + 4) })
      | .error fault => (.error fault, m) := by
  have top : perform (Exec.getRegister .esp) m = (.ok m.registers.esp, m) := rfl
  simp only [Exec.pop, perform_bind, top, perform_look]
  cases m.readWord m.registers.esp <;> rfl

theorem Writes.pop {next : Word → Exec β}
    (later : ∀ v, Writes (next v)
      { m with registers := m.registers.set .esp (m.registers.esp + 4) } rest) :
    Writes (Exec.pop >>= next) m (⟨m.registers.esp, 4, false⟩ :: rest) := by
  intro byte untouched
  rw [perform_bind, perform_pop]
  cases found : m.readWord m.registers.esp with
  | error fault => rfl
  | ok v =>
    have fine := readWord_eq_ok found
    refine later v byte fun a member => untouched a ?_
    simp [upToFault, fine, member]

/-- What a division leaves behind. -/
theorem perform_divideWide (divisor : Word) :
    perform (divideWide divisor) m =
      if divisor = 0 then (.error .divisionByZero, m)
      else
        let dividend := wideInt m.registers.edx m.registers.eax
        let quotient := dividend.tdiv divisor.toInt
        if (Word.ofInt quotient).toInt ≠ quotient then (.error .quotientOverflow, m)
        else
          let remainder := dividend.tmod divisor.toInt
          (.ok (), { m with
            registers := (m.registers.set .eax (.ofInt quotient)).set .edx (.ofInt remainder) }) := by
  by_cases zero : divisor = 0
  · simp only [divideWide, zero, if_true]
    rfl
  · simp only [divideWide, zero, if_false]
    simp only [perform_bind, perform_get]
    split
    · rfl
    · rfl

/-- A call within the program pushes the return address. -/
private theorem writes_call {index : Int} :
    Writes (do
      Exec.push (.ofInt (← get).pc)
      Exec.setPc index) m [m.pushAccess] := by
  intro byte untouched
  have pushed := writes_push (m := m) (.ofInt m.pc) byte untouched
  simp only [perform_bind, perform_get]
  generalize perform (Exec.push (.ofInt m.pc)) m = result at pushed
  rcases result with ⟨_ | _, after⟩
  · exact pushed
  · exact pushed

/-- Routines of the library write no memory. -/
theorem memory_routine (routine : Routine) :
    (perform routine.run m).2.memory = m.memory := by
  cases routine with
  | printf =>
    simp only [Routine.run, perform_bind, perform_look, perform_output]
    cases (do m.readText (← Routine.argument m 0) : Except Fault Bytes) with
    | error fault => rfl
    | ok format =>
      cases expanded : Routine.expand m 1 format with
      | error fault => simp only [expanded]
      | ok text =>
        simp only [expanded]
        cases m.sink.fits text <;> rfl
  | puts =>
    simp only [Routine.run, perform_bind, perform_look, perform_output]
    cases (do m.readText (← Routine.argument m 0) : Except Fault Bytes) with
    | error fault => rfl
    | ok text =>
      dsimp only
      cases m.sink.fits (text ++ [10]) <;> rfl
  | malloc =>
    simp only [Routine.run, perform_bind, perform_look, perform_get]
    cases Routine.argument m 0 with
    | error fault => rfl
    | ok size =>
      dsimp only
      split <;> rfl
  | exit =>
    simp only [Routine.run, perform_bind, perform_look]
    cases Routine.argument m 0 <;> rfl
  | abort => rfl

/-- An instruction changes only bytes that its writes touch. -/
theorem writes_execute (i : Instr) (m : Machine) : Writes (execute i) m (i.accesses m) := by
  rcases i with ⟨mnemonic, operands, line⟩
  cases mnemonic with
  | movl =>
    exact .operand fun source known => .readOperand known fun value =>
      .operand fun target there => writes_write there value
  | movb =>
    exact .operand fun source known => .readByteOperand known fun value =>
      .operand fun target there => writes_writeByte there value
  | movzbl =>
    exact .operand fun source known => .readByteOperand known fun value =>
      .operand fun target there => writes_write there _
  | leal =>
    refine .operand fun source known => ?_
    obtain ⟨result, looked, _⟩ := perform_address (m := m) source
    exact .look looked fun a _ => .operand fun target there => writes_write there a
  | pushl =>
    exact .operand fun source known => .readOperand known fun value => writes_push value
  | popl => exact .pop fun value => .operand fun target there => writes_write there value
  | arithmetic operation =>
    exact .operand fun source known => .operand fun target there =>
      .readOperand known fun right => .readOperand there fun left =>
        .act rfl rfl (writes_write there _)
  | cmpl =>
    refine .operand fun source known => .operand fun target there => ?_
    obtain ⟨_, lookedRight, _⟩ := perform_read (m := m) source
    obtain ⟨_, lookedLeft, _⟩ := perform_read (m := m) target
    exact .look lookedRight fun right _ => .look lookedLeft fun left _ => .of_eq rfl
  | imull =>
    refine .operand fun source known => .readOperand known fun right => ?_
    dsimp only
    split
    · exact .of_eq rfl
    · exact .operand fun target there => .readOperand there fun left =>
        .act rfl rfl (.act rfl rfl (writes_write there _))
  | idivl =>
    refine .operand fun source known => ?_
    obtain ⟨_, looked, _⟩ := perform_read (m := m) source
    refine .look looked fun divisor _ => .of_eq ?_
    rw [perform_divideWide]
    split
    · rfl
    · dsimp only
      split <;> rfl
  | cdq => exact .of_eq rfl
  | negl =>
    exact .operand fun target there => .readOperand there fun value =>
      .act rfl rfl (writes_write there _)
  | shll =>
    exact .operand fun source known => .readOperand known fun count =>
      .operand fun target there => .readOperand there fun value =>
        .act rfl rfl (.act rfl rfl (writes_write there _))
  | set comparison =>
    exact .act rfl rfl (.operand fun target there => writes_writeByte there _)
  | jmp => exact .operand fun target there => .of_eq rfl
  | jump condition =>
    refine .act rfl rfl ?_
    split
    · exact .operand fun target there => .of_eq rfl
    · exact .of_eq rfl
  | call =>
    refine .operand fun target there => ?_
    have known : operands[0]? = some target := there
    simp only [Instr.accesses, known, Option.map_some, Option.getD_some, Destination.accesses,
      callTo]
    split
    · refine .of_eq ?_
      unfold Routine.call
      split
      · exact memory_routine _
      · rfl
    · exact writes_call
  | ret =>
    exact .pop fun value => by
      split
      · exact .of_eq rfl
      · exact .of_eq rfl
  | leave =>
    exact .act rfl rfl (.act rfl rfl (.pop fun value => .of_eq rfl))
  | nop => exact .of_eq rfl
  | unknown name => exact .of_eq rfl

end Footprint

/-- The state in which the next instruction is executed: the counters have moved on. -/
def next (m : Machine) : Machine := { m with pc := m.pc + 1, steps := m.steps + 1 }

@[simp] theorem next_registers (m : Machine) : m.next.registers = m.registers := rfl

@[simp] theorem next_memory (m : Machine) : m.next.memory = m.memory := rfl

section

variable (m : Machine)

private theorem textAccesses_next (fuel : Nat) (address : Word) :
    m.next.textAccesses fuel address = m.textAccesses fuel address := by
  induction fuel generalizing address with
  | zero => rfl
  | succ fuel ih => simp [textAccesses, ih]

private theorem readTextWithin_next (fuel : Nat) (address : Word) :
    m.next.readTextWithin fuel address = m.readTextWithin fuel address := by
  induction fuel generalizing address with
  | zero => rfl
  | succ fuel ih =>
    simp only [readTextWithin, ih]
    rfl

private theorem expandAccesses_next (index : Nat) (format : Bytes) :
    Routine.expandAccesses m.next index format = Routine.expandAccesses m index format := by
  fun_induction Routine.expandAccesses m index format with
  | case1 => rfl
  | case2 => simp [Routine.expandAccesses]
  | case3 index rest ih => simpa [Routine.expandAccesses] using ih
  | case4 index letter rest other ih =>
    have text (address : Word) : m.next.readAccesses address = m.readAccesses address :=
      textAccesses_next m _ address
    simp only [Routine.expandAccesses, other, if_true, if_false, text, ih, next_memory,
      Routine.argumentAccess, Routine.argumentAddress, next_registers]
  | case5 index b rest other ih =>
    cases rest with
    | nil => simp [Routine.expandAccesses, other]
    | cons _ _ => simpa [Routine.expandAccesses, other] using ih

private theorem routineAccesses_next (routine : Routine) :
    routine.accesses m.next = routine.accesses m := by
  cases routine with
  | printf =>
    have format : m.next.readText = m.readText := by
      funext address
      exact readTextWithin_next m _ address
    simp only [Routine.accesses, expandAccesses_next, readAccesses, textAccesses_next, format]
    rfl
  | puts =>
    simp only [Routine.accesses, readAccesses, textAccesses_next]
    rfl
  | malloc | exit | abort => rfl

theorem Instr.accesses_next (i : Instr) : i.accesses m.next = i.accesses m := by
  rcases i with ⟨mnemonic, operands, line⟩
  cases mnemonic with
  | call =>
    have routines : Routine.accesses m.next = Routine.accesses m :=
      funext (routineAccesses_next m)
    simp only [Instr.accesses, Destination.accesses, routines]
    rfl
  | _ => rfl

end

/-- A step that executes an instruction. -/
theorem step_eq {m : Machine} {i : Instr} (running : m.halted = false)
    (fetched : m.fetch? = some i) :
    m.step =
      match perform (execute i) m.next with
      | (.ok (), after) => (.ok (), after)
      | (.error .aborted, after) => (.error ⟨.aborted, none⟩, after)
      | (.error fault, after) => (.error ⟨fault, some i⟩, after) := by
  unfold step
  rw [if_neg (by simp [running]), fetched]
  rfl

/-- A step that succeeds has executed its instruction. -/
theorem perform_of_step {m after : Machine} {i : Instr} (running : m.halted = false)
    (fetched : m.fetch? = some i) (stepped : m.step = (.ok (), after)) :
    perform (execute i) m.next = (.ok (), after) := by
  rw [step_eq running fetched] at stepped
  generalize perform (execute i) m.next = result at stepped ⊢
  rcases result with ⟨fault | _, next⟩
  · cases fault <;> cases stepped
  · cases stepped
    rfl

/-- A step changes no byte that none of its writes touches. -/
theorem read_step (m : Machine) {byte : Word}
    (untouched : ∀ a ∈ m.accesses, a.isWrite = true → ¬ a.Touches byte) :
    m.step.2.memory.read byte = m.memory.read byte := by
  cases running : m.halted with
  | true => simp [step, running]
  | false =>
    cases fetched : m.fetch? with
    | none => simp [step, running, fetched]
    | some i =>
      simp only [accesses, running, fetched, Bool.false_eq_true, if_false, Option.map_some,
        Option.getD_some] at untouched
      rw [← i.accesses_next m] at untouched
      have kept := writes_execute i m.next byte untouched
      rw [step_eq running fetched]
      generalize perform (execute i) m.next = result at kept
      rcases result with ⟨fault | _, after⟩
      · cases fault <;> exact kept
      · exact kept

end Onepass.Machine
