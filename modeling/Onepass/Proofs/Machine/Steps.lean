import Onepass.Proofs.Machine.Confined

/-! What single instructions do. Every step counts as one, and the instructions that programs use
have the effects stated here; one that touches memory needs its bytes to be accessible. -/
namespace Onepass.Machine

/-- An instruction that is executed counts as one. -/
theorem steps_of_fetched {m : Machine} {i : Instr} (running : m.halted = false)
    (fetched : m.fetch? = some i) : m.step.2.steps = m.steps + 1 := by
  have kept := ((orderly_execute i).keeps m.next).steps
  rw [step_eq running fetched]
  generalize perform (execute i) m.next = result at kept
  rcases result with ⟨fault | _, next⟩
  · cases fault <;> exact kept
  · exact kept

/-- Every step of a machine that runs counts as one. -/
theorem steps_step {m after : Machine} (running : m.halted = false)
    (stepped : m.step = (.ok (), after)) : after.steps = m.steps + 1 := by
  cases fetched : m.fetch? with
  | none => simp [step, running, fetched] at stepped
  | some i =>
    have count := steps_of_fetched running fetched
    rw [stepped] at count
    exact count

/-- Steps are not taken back. -/
theorem steps_le_step (m : Machine) : m.steps ≤ m.step.2.steps := by
  cases running : m.halted with
  | true => simp [step, running]
  | false =>
    cases fetched : m.fetch? with
    | none => simp [step, running, fetched]
    | some i =>
      rw [steps_of_fetched running fetched]
      exact Nat.le_succ _

section Effects

variable {m : Machine} {line : Int} {r base : Register} {offset value : Int32} {v w : Word}

theorem readWord_eq {a : Word} (fine : accessible a 4 = true) :
    m.readWord a = .ok (m.memory.readWord a) := by
  simp only [readWord, checkAccess, fine, if_true]
  rfl

theorem readByte_eq {a : Word} (fine : accessible a 1 = true) :
    m.readByte a = .ok (m.memory.read a) := by
  simp only [readByte, checkAccess, fine, if_true]
  rfl

theorem writeWord_eq {a : Word} (fine : accessible a 4 = true) :
    m.writeWord a v = .ok { m with memory := m.memory.writeWord a v } := by
  simp only [writeWord, checkAccess, fine, if_true]
  rfl

theorem writeByte_eq {a : Word} {b : UInt8} (fine : accessible a 1 = true) :
    m.writeByte a b = .ok { m with memory := m.memory.write a b } := by
  simp only [writeByte, checkAccess, fine, if_true]
  rfl

theorem readWord_fault {a : Word} (bad : accessible a 4 = false) :
    m.readWord a = .error (.badAccess 4 a) := by
  simp only [readWord, checkAccess, bad]
  rfl

theorem readByte_fault {a : Word} (bad : accessible a 1 = false) :
    m.readByte a = .error (.badAccess 1 a) := by
  simp only [readByte, checkAccess, bad]
  rfl

theorem writeWord_fault {a : Word} (bad : accessible a 4 = false) :
    m.writeWord a v = .error (.badAccess 4 a) := by
  simp only [writeWord, checkAccess, bad]
  rfl

/-- A memory operand of an instruction. -/
abbrev Operand.at (offset : Int32) (base : Register) : Operand :=
  .memory offset (some (.full base))

/-- A register operand of an instruction. -/
abbrev Operand.full (r : Register) : Operand := .register (.full r)

theorem read_register : perform (Exec.read (.full r)) m = (.ok (m.registers.get r), m) := rfl

theorem read_immediate : perform (Exec.read (.immediate value)) m = (.ok value.toUInt32, m) := rfl

theorem read_memory {a : Word} (place : m.registers.get base + offset.toUInt32 = a)
    (fine : accessible a 4 = true) :
    perform (Exec.read (.at offset base)) m = (.ok (m.memory.readWord a), m) := by
  have looked : perform (Exec.read (.at offset base)) m =
      (m.readWord (m.registers.get base + offset.toUInt32), m) := perform_look
  rw [looked, place, readWord_eq fine]

theorem read_memory_fault {a : Word} (place : m.registers.get base + offset.toUInt32 = a)
    (bad : accessible a 4 = false) :
    perform (Exec.read (.at offset base)) m = (.error (.badAccess 4 a), m) := by
  have looked : perform (Exec.read (.at offset base)) m =
      (m.readWord (m.registers.get base + offset.toUInt32), m) := perform_look
  rw [looked, place, readWord_fault bad]

theorem readByte_memory {a : Word} (place : m.registers.get base + offset.toUInt32 = a)
    (fine : accessible a 1 = true) :
    perform (Exec.readByte (.at offset base)) m = (.ok (m.memory.read a), m) := by
  have looked : perform (Exec.readByte (.at offset base)) m =
      (m.readByte (m.registers.get base + offset.toUInt32), m) := perform_look
  rw [looked, place, readByte_eq fine]

theorem write_register :
    perform (Exec.write (.full r) v) m =
      (.ok (), { m with registers := m.registers.set r v }) := rfl

theorem address_memory :
    perform (Exec.address (.at offset base)) m =
      (.ok (m.registers.get base + offset.toUInt32), m) := rfl

theorem write_memory {a : Word} (place : m.registers.get base + offset.toUInt32 = a)
    (fine : accessible a 4 = true) :
    perform (Exec.write (.at offset base) v) m =
      (.ok (), { m with memory := m.memory.writeWord a v }) := by
  have opened : Exec.write (.at offset base) v =
      Exec.address (.at offset base) >>= fun a => Exec.change (·.writeWord a v) := rfl
  rw [opened, perform_bind, address_memory]
  simp only [perform_change, place, writeWord_eq fine]

theorem write_memory_fault {a : Word} (place : m.registers.get base + offset.toUInt32 = a)
    (bad : accessible a 4 = false) :
    perform (Exec.write (.at offset base) v) m = (.error (.badAccess 4 a), m) := by
  have opened : Exec.write (.at offset base) v =
      Exec.address (.at offset base) >>= fun a => Exec.change (·.writeWord a v) := rfl
  rw [opened, perform_bind, address_memory]
  simp only [perform_change, place, writeWord_fault bad]

theorem writeByte_memory {a : Word} {b : UInt8}
    (place : m.registers.get base + offset.toUInt32 = a) (fine : accessible a 1 = true) :
    perform (Exec.writeByte (.at offset base) b) m =
      (.ok (), { m with memory := m.memory.write a b }) := by
  have opened : Exec.writeByte (.at offset base) b =
      Exec.address (.at offset base) >>= fun a => Exec.change (·.writeByte a b) := rfl
  rw [opened, perform_bind, address_memory]
  simp only [perform_change, place, writeByte_eq fine]

section

variable {after : Machine} {o p : Operand} {result : Except Fault Unit} {fault : Fault}

theorem execute_movl (read : perform (Exec.read o) m = (.ok v, m))
    (written : perform (Exec.write p v) m = (result, after)) :
    perform (execute ⟨.movl, [o, p], line⟩) m = (result, after) := by
  have opened : perform (execute ⟨.movl, [o, p], line⟩) m =
      perform (Exec.read o >>= Exec.write p) m := rfl
  rw [opened, perform_bind, read]
  exact written

theorem execute_movb {b : UInt8} (read : perform (Exec.readByte o) m = (.ok b, m))
    (written : perform (Exec.writeByte p b) m = (result, after)) :
    perform (execute ⟨.movb, [o, p], line⟩) m = (result, after) := by
  have opened : perform (execute ⟨.movb, [o, p], line⟩) m =
      perform (Exec.readByte o >>= Exec.writeByte p) m := rfl
  rw [opened, perform_bind, read]
  exact written

theorem execute_movzbl {b : UInt8} (read : perform (Exec.readByte o) m = (.ok b, m))
    (written : perform (Exec.write p b.toUInt32) m = (result, after)) :
    perform (execute ⟨.movzbl, [o, p], line⟩) m = (result, after) := by
  have opened : perform (execute ⟨.movzbl, [o, p], line⟩) m =
      perform (Exec.readByte o >>= fun b => Exec.write p b.toUInt32) m := rfl
  rw [opened, perform_bind, read]
  exact written

theorem push_eq (fine : accessible (m.registers.esp - 4) 4 = true) :
    perform (Exec.push v) m =
      (.ok (), { m with registers := m.registers.set .esp (m.registers.esp - 4),
                        memory := m.memory.writeWord (m.registers.esp - 4) v }) := by
  have opened : perform (Exec.push v) m =
      perform (Exec.change (·.writeWord (m.registers.esp - 4) v))
        { m with registers := m.registers.set .esp (m.registers.esp - 4) } := rfl
  rw [opened, perform_change, writeWord_eq fine]

theorem execute_pushl (read : perform (Exec.read o) m = (.ok v, m))
    (fine : accessible (m.registers.esp - 4) 4 = true) :
    perform (execute ⟨.pushl, [o], line⟩) m =
      (.ok (), { m with registers := m.registers.set .esp (m.registers.esp - 4),
                        memory := m.memory.writeWord (m.registers.esp - 4) v }) := by
  have opened : perform (execute ⟨.pushl, [o], line⟩) m =
      perform (Exec.read o >>= Exec.push) m := rfl
  rw [opened, perform_bind, read]
  exact push_eq fine

theorem pop_eq (fine : accessible m.registers.esp 4 = true) :
    perform Exec.pop m = (.ok (m.memory.readWord m.registers.esp),
      { m with registers := m.registers.set .esp (m.registers.esp + 4) }) := by
  rw [perform_pop, readWord_eq fine]

theorem execute_popl (fine : accessible m.registers.esp 4 = true) :
    perform (execute ⟨.popl, [.full r], line⟩) m =
      (.ok (), { m with
        registers := (m.registers.set .esp (m.registers.esp + 4)).set r
          (m.memory.readWord m.registers.esp) }) := by
  have opened : perform (execute ⟨.popl, [.full r], line⟩) m =
      perform (Exec.pop >>= Exec.write (.full r)) m := rfl
  rw [opened, perform_bind, pop_eq fine]
  rfl

/-- The frame is left by going back to the stack and the base of the caller. -/
theorem execute_leave (fine : accessible m.registers.ebp 4 = true) :
    perform (execute ⟨.leave, [], line⟩) m =
      (.ok (), { m with
        registers := (m.registers.set .esp (m.registers.ebp + 4)).set .ebp
          (m.memory.readWord m.registers.ebp) }) := by
  have opened : perform (execute ⟨.leave, [], line⟩) m =
      perform (Exec.pop >>= Exec.setRegister .ebp)
        { m with registers := m.registers.set .esp m.registers.ebp } := rfl
  have popped := pop_eq (m := { m with registers := m.registers.set .esp m.registers.ebp }) fine
  rw [opened, perform_bind, popped]
  rfl

/-- Returning to the sentinel ends the program. -/
theorem execute_ret (fine : accessible m.registers.esp 4 = true)
    (back : m.memory.readWord m.registers.esp = returnSentinel) :
    perform (execute ⟨.ret, [], line⟩) m =
      (.ok (), { m with
        registers := m.registers.set .esp (m.registers.esp + 4)
        halted := true
        status := m.registers.eax.toInt }) := by
  have opened : perform (execute ⟨.ret, [], line⟩) m =
      perform (Exec.pop >>= fun value => if value = returnSentinel then do
          Exec.halt (← Exec.getRegister .eax).toInt
        else Exec.setPc value.toNat) m := rfl
  rw [opened, perform_bind, pop_eq fine, back]
  rfl

theorem execute_arithmetic {operation : Arithmetic}
    (right : perform (Exec.read o) m = (.ok w, m)) (left : perform (Exec.read p) m = (.ok v, m))
    (written : perform (Exec.write p (operation.apply v w).1)
      { m with flags := (operation.apply v w).2 } = (result, after)) :
    perform (execute ⟨.arithmetic operation, [o, p], line⟩) m = (result, after) := by
  have opened : perform (execute ⟨.arithmetic operation, [o, p], line⟩) m =
      perform (Exec.read o >>= fun w => Exec.read p >>= fun v => do
        Exec.setFlags (operation.apply v w).2
        Exec.write p (operation.apply v w).1) m := rfl
  rw [opened, perform_bind, right]
  dsimp only
  rw [perform_bind, left]
  exact written

theorem execute_cmpl (right : perform (Exec.read o) m = (.ok w, m))
    (left : perform (Exec.read p) m = (.ok v, m)) :
    perform (execute ⟨.cmpl, [o, p], line⟩) m = (.ok (), { m with flags := .ofSub v w }) := by
  have opened : perform (execute ⟨.cmpl, [o, p], line⟩) m =
      perform (Exec.read o >>= fun w => Exec.read p >>= fun v =>
        Exec.setFlags (.ofSub v w)) m := rfl
  rw [opened, perform_bind, right]
  dsimp only
  rw [perform_bind, left]
  rfl

theorem execute_cmpl_fault (right : perform (Exec.read o) m = (.error fault, m)) :
    perform (execute ⟨.cmpl, [o, p], line⟩) m = (.error fault, m) := by
  have opened : perform (execute ⟨.cmpl, [o, p], line⟩) m =
      perform (Exec.read o >>= fun w => Exec.read p >>= fun v =>
        Exec.setFlags (.ofSub v w)) m := rfl
  rw [opened, perform_bind, right]

theorem execute_imull (read : perform (Exec.read o) m = (.ok v, m)) :
    perform (execute ⟨.imull, [o], line⟩) m = perform (multiplyWide v) m := by
  have opened : perform (execute ⟨.imull, [o], line⟩) m =
      perform (Exec.read o >>= multiplyWide) m := rfl
  rw [opened, perform_bind, read]

theorem execute_idivl (read : perform (Exec.read o) m = (.ok v, m)) :
    perform (execute ⟨.idivl, [o], line⟩) m = perform (divideWide v) m := by
  have opened : perform (execute ⟨.idivl, [o], line⟩) m =
      perform (Exec.read o >>= divideWide) m := rfl
  rw [opened, perform_bind, read]

end

end Effects

end Onepass.Machine
