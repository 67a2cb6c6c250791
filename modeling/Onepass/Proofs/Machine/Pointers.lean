import Onepass.Proofs.Assembly.Agreement
import Onepass.Proofs.Machine.Ledger

/-! The registers that hold places on the stack: the stack pointer, the base, and `%edi`, where the
stack pointer is kept during a call that needs another one. What an instruction makes of them can be
read off its line, without its symbols; an instruction that does not name them leaves them alone. -/
namespace Onepass

namespace Machine

/-- Whether a register and the place in the program are as they were. -/
structure Steady (r : Register) (m after : Machine) : Prop where
  register : after.registers.get r = m.registers.get r
  pc : after.pc = m.pc

theorem Steady.refl (r : Register) (m : Machine) : Steady r m m := ⟨rfl, rfl⟩

theorem Steady.trans {r : Register} {m middle after : Machine} (first : Steady r m middle)
    (second : Steady r middle after) : Steady r m after :=
  ⟨second.register.trans first.register, second.pc.trans first.pc⟩

/-- Whether an action leaves a register and the place in the program alone. -/
def Spares {α : Type} (r : Register) (action : Exec α) : Prop :=
  ∀ m, Steady r m (perform action m).2

namespace Spares

variable {α β : Type} {r : Register} {action : Exec α}

theorem bind {next : α → Exec β} (first : Spares r action) (later : ∀ v, Spares r (next v)) :
    Spares r (action >>= next) := by
  intro m
  have kept := first m
  rw [perform_bind]
  generalize perform action m = result at kept
  rcases result with ⟨_ | v, middle⟩
  · exact kept
  · exact kept.trans (later v middle)

/-- An action that only looks. -/
theorem of_look (looks : ∀ m, ∃ result, perform action m = (result, m)) : Spares r action := by
  intro m
  obtain ⟨result, same⟩ := looks m
  rw [same]
  exact .refl r m

theorem pure (v : α) : Spares r (Pure.pure v : Exec α) := of_look fun _ => ⟨_, rfl⟩

theorem throw (fault : Fault) : Spares r (MonadExcept.throw fault : Exec α) :=
  of_look fun _ => ⟨_, rfl⟩

theorem look (f : Machine → Except Fault α) : Spares r (Exec.look f) :=
  of_look fun _ => ⟨_, perform_look⟩

theorem get {next : Machine → Exec β} (later : ∀ m, Spares r (next m)) :
    Spares r (MonadState.get >>= next) :=
  (of_look fun _ => ⟨_, rfl⟩).bind later

theorem getRegister (q : Register) : Spares r (Exec.getRegister q) := of_look fun _ => ⟨_, rfl⟩

theorem setRegister {q : Register} (other : q ≠ r) (value : Word) :
    Spares r (Exec.setRegister q value) :=
  fun m => ⟨(Registers.get_set m.registers q r value).trans (if_neg other), rfl⟩

theorem setFlags (flags : Flags) : Spares r (Exec.setFlags flags) := fun _ => ⟨rfl, rfl⟩

/-- A change of memory. -/
theorem change {f : Machine → Except Fault Machine}
    (bytes : ∀ m after, f m = .ok after → ∃ memory, after = { m with memory }) :
    Spares r (Exec.change f) := by
  intro m
  rw [perform_change]
  cases done : f m with
  | error fault => exact .refl r m
  | ok after =>
    obtain ⟨memory, rfl⟩ := bytes m after done
    exact ⟨rfl, rfl⟩

theorem writeWord (a value : Word) : Spares r (Exec.change (·.writeWord a value)) :=
  change fun m after done => by
    obtain ⟨_, _, done⟩ := bind_eq_ok.mp done
    cases done
    exact ⟨_, rfl⟩

theorem writeByte (a : Word) (value : UInt8) : Spares r (Exec.change (Machine.writeByte · a value)) :=
  change fun m after done => by
    obtain ⟨_, _, done⟩ := bind_eq_ok.mp done
    cases done
    exact ⟨_, rfl⟩

/-- What follows an operand of an instruction. -/
theorem operand {i : Instr} {index : Nat} {next : Operand → Exec β}
    (later : ∀ o ∈ i.operands, Spares r (next o)) : Spares r (Exec.operand i index >>= next) := by
  intro m
  obtain ⟨result, looked, known⟩ := perform_operand (m := m) i index
  rw [perform_bind, looked]
  cases result with
  | error fault => exact .refl r m
  | ok o => exact later o (List.mem_of_getElem? (known o rfl)) m

theorem address (o : Operand) : Spares r (Exec.address o) :=
  of_look fun m => by
    obtain ⟨result, looked, _⟩ := perform_address (m := m) o
    exact ⟨result, looked⟩

theorem read (o : Operand) : Spares r (Exec.read o) :=
  of_look fun m => by
    obtain ⟨result, looked, _⟩ := perform_read (m := m) o
    exact ⟨result, looked⟩

theorem readByte (o : Operand) : Spares r (Exec.readByte o) :=
  of_look fun m => by
    obtain ⟨result, looked, _⟩ := perform_readByte (m := m) o
    exact ⟨result, looked⟩

theorem writeRegister {name : RegisterName} (other : name ≠ .full r) (low : Register.eax ≠ r)
    (value : Word) : Spares r (Exec.writeRegister name value) := by
  cases name with
  | full q => exact setRegister (fun same => other (congrArg _ same)) value
  | al => exact (getRegister _).bind fun _ => setRegister low _
  | unknown name => exact throw _

theorem write {o : Operand} (other : o.mode ≠ .register (.full r)) (low : Register.eax ≠ r)
    (value : Word) : Spares r (Exec.write o value) := by
  rcases o with ⟨_ | name | _ | _, _⟩
  · exact (address _).bind fun a => writeWord a value
  · exact writeRegister (fun same => other (congrArg _ same)) low value
  · exact (address _).bind fun a => writeWord a value
  · exact (address _).bind fun a => writeWord a value

theorem writeOperandByte {o : Operand} (other : o.mode ≠ .register (.full r))
    (low : Register.eax ≠ r) (value : UInt8) : Spares r (Exec.writeByte o value) := by
  rcases o with ⟨_ | name | _ | _, _⟩
  · exact (address _).bind fun a => writeByte a value
  · exact writeRegister (fun same => other (congrArg _ same)) low _
  · exact (address _).bind fun a => writeByte a value
  · exact (address _).bind fun a => writeByte a value

theorem push (other : Register.esp ≠ r) (value : Word) : Spares r (Exec.push value) :=
  (getRegister _).bind fun _ => (setRegister other _).bind fun _ => writeWord _ value

theorem pop (other : Register.esp ≠ r) : Spares r Exec.pop :=
  (getRegister _).bind fun _ => (look _).bind fun _ => (setRegister other _).bind fun _ => pure _

theorem multiplyWide (low : Register.eax ≠ r) (high : Register.edx ≠ r) (factor : Word) :
    Spares r (multiplyWide factor) :=
  get fun _ => (setRegister low _).bind fun _ => (setRegister high _).bind fun _ => setFlags _

theorem divideWide (low : Register.eax ≠ r) (high : Register.edx ≠ r) (divisor : Word) :
    Spares r (divideWide divisor) := by
  intro m
  rw [perform_divideWide]
  split
  · exact .refl r m
  · dsimp only
    split
    · exact .refl r m
    · exact ((setRegister low _).bind fun _ => setRegister high _) m

private theorem output (text : Bytes) : Spares r (Routine.output text) := fun _ => ⟨rfl, rfl⟩

/-- Routines have a result and leave all other registers alone. -/
theorem routine (low : Register.eax ≠ r) (routine : Routine) : Spares r routine.run := by
  cases routine with
  | printf =>
    refine (look _).bind fun format => (look _).bind fun text => (output text).bind
      fun written => (setRegister low _).bind fun _ => ?_
    split
    · exact pure _
    · exact throw _
  | puts =>
    refine (look _).bind fun text => (output _).bind fun written =>
      (setRegister low _).bind fun _ => ?_
    split
    · exact pure _
    · exact throw _
  | malloc =>
    refine (look _).bind fun size m => ?_
    rw [perform_bind, perform_get]
    dsimp only
    split
    · exact setRegister low 0 m
    · exact ⟨(setRegister low m.heap m).register, rfl⟩
  | exit => exact (look _).bind fun status => fun _ => ⟨rfl, rfl⟩
  | abort => exact Spares.bind (fun _ => ⟨rfl, rfl⟩) fun _ => throw _

theorem call (low : Register.eax ≠ r) (symbol : Bytes) : Spares r (Routine.call symbol) := by
  unfold Routine.call
  split
  · exact routine low _
  · exact throw _

end Spares

/-- Whether an instruction moves the stack pointer without naming it, or goes elsewhere. -/
def Mnemonic.isPlain : Mnemonic → Bool
  | .pushl | .popl | .leave | .ret | .call | .jmp | .jump _ => false
  | _ => true

/-- An instruction leaves the registers alone that it does not name, other than the accumulator and
its extension. -/
theorem spares_execute {r : Register} {i : Instr} (plain : i.mnemonic.isPlain = true)
    (low : Register.eax ≠ r) (high : Register.edx ≠ r)
    (free : ∀ o ∈ i.operands, o.mode ≠ .register (.full r)) : Spares r (execute i) := by
  have read {α : Type} {index : Nat} {next : Word → Exec α} (later : ∀ v, Spares r (next v)) :
      Spares r (Exec.operand i index >>= fun o => Exec.read o >>= next) :=
    .operand fun o _ => (Spares.read o).bind later
  have write (index : Nat) (value : Word) :
      Spares r (Exec.operand i index >>= (Exec.write · value)) :=
    .operand fun o member => .write (free o member) low value
  unfold execute
  cases same : i.mnemonic with
  | movl => exact read fun v => write 1 v
  | movb =>
    exact .operand fun o _ => (Spares.readByte o).bind fun v => .operand fun o member =>
      .writeOperandByte (free o member) low v
  | movzbl => exact .operand fun o _ => (Spares.readByte o).bind fun v => write 1 _
  | leal => exact .operand fun o _ => (Spares.address o).bind fun v => write 1 v
  | arithmetic operation =>
    exact .operand fun o _ => .operand fun p member => (Spares.read o).bind fun w =>
      (Spares.read p).bind fun v => (Spares.setFlags _).bind fun _ => .write (free p member) low _
  | cmpl =>
    exact .operand fun o _ => .operand fun p _ => (Spares.read o).bind fun w =>
      (Spares.read p).bind fun v => .setFlags _
  | imull =>
    refine read fun w => ?_
    split
    · exact .multiplyWide low high w
    · exact .operand fun p member => (Spares.read p).bind fun v => .get fun m =>
        (Spares.setFlags _).bind fun _ => .write (free p member) low _
  | idivl => exact read fun v => .divideWide low high v
  | cdq => exact (Spares.getRegister _).bind fun _ => .setRegister high _
  | negl =>
    exact .operand fun p member => (Spares.read p).bind fun v => (Spares.setFlags _).bind fun _ =>
      .write (free p member) low _
  | shll =>
    exact read fun w => .operand fun p member => (Spares.read p).bind fun v => .get fun m =>
      (Spares.setFlags _).bind fun _ => .write (free p member) low _
  | set comparison =>
    exact .get fun m => .operand fun p member => .writeOperandByte (free p member) low _
  | nop => exact .pure _
  | unknown name => exact .throw _
  | pushl | popl | leave | ret | call | jmp | jump _ =>
    rw [same] at plain
    cases plain

/-- Whether a register holds a place on the stack. -/
def Register.isHeld : Register → Bool
  | .esp | .ebp | .edi => true
  | _ => false

end Machine

/-- The register with a place on the stack that an operand names. -/
def Assembly.Operand.held? : Assembly.Operand → Option Machine.Register
  | .register name =>
    match Machine.RegisterName.ofName name with
    | .full r => if r.isHeld then some r else none
    | _ => none
  | _ => none

namespace Machine

/-- What is known about the registers that hold places on the stack. -/
structure Pointers where
  esp : Word
  ebp : Option Word := none
  edi : Option Word := none
deriving DecidableEq

namespace Pointers

/-- Whether registers are what is known about them. -/
structure Describes (p : Pointers) (r : Registers) : Prop where
  esp : r.esp = p.esp
  ebp : ∀ {w : Word}, p.ebp = some w → r.ebp = w
  edi : ∀ {w : Word}, p.edi = some w → r.edi = w

/-- When nothing is known but the stack pointer. -/
theorem Describes.of_esp {esp : Word} {r : Registers} (same : r.esp = esp) :
    Describes ⟨esp, none, none⟩ r where
  esp := same
  ebp known := by cases known
  edi known := by cases known

/-- What an instruction makes of the pointers that it names: it may copy the stack pointer, take it
back from `%edi`, or apply a constant to it. -/
def named (p : Pointers) : Mnemonic → List Assembly.Operand → Option Pointers
  | .movl, [source, target] =>
    match source.held?, target.held? with
    | some .esp, some .ebp => some { p with ebp := some p.esp }
    | some .esp, some .edi => some { p with edi := some p.esp }
    | some .edi, some .esp => p.edi.map fun w => { p with esp := w }
    | _, _ => none
  | .arithmetic operation, [.immediate (.number n), target] =>
    if target.held? = some .esp then
      some { p with esp := (operation.apply p.esp (Word.ofInt n)).1 }
    else none
  | _, _ => none

/-- What an instruction makes of the pointers, if that can be told from its line. A call is taken to
be one of a routine outside the program. -/
def after (p : Pointers) (i : Assembly.Instruction) : Option Pointers :=
  match Mnemonic.ofName? i.mnemonic with
  | none | some .ret => none
  | some .pushl => some { p with esp := p.esp - 4 }
  | some .leave => p.ebp.map fun w => { p with esp := w + 4, ebp := none }
  | some mnemonic =>
    if i.operands.any (·.held?.isSome) then p.named mnemonic i.operands
    else some (if mnemonic = .popl then { p with esp := p.esp + 4 } else p)

end Pointers

section

variable {l : Assembly.Layout} {number : Nat} {i : Assembly.Instruction} {instr : Instr}

theorem ofName?_of_instruction (decoded : l.instruction number i = .ok instr) :
    Mnemonic.ofName? i.mnemonic = some instr.mnemonic := by
  unfold Assembly.Layout.instruction at decoded
  cases known : Mnemonic.ofName? i.mnemonic with
  | none => simp [known] at decoded
  | some mnemonic =>
    simp only [known] at decoded
    split at decoded
    · cases decoded
    · obtain ⟨operands, _, decoded⟩ := bind_eq_ok.mp decoded
      cases decoded
      rfl

theorem operands_decoded (decoded : l.instruction number i = .ok instr) :
    List.Forall₂ (fun o x =>
      if isBranch i.mnemonic then o.Targets (fun name n => l.label? name = some n) i.mnemonic x
      else o.Denotes (fun name a => l.symbol? name = some a) x) i.operands instr.operands :=
  Assembly.Layout.operands_of_instruction (fun _ _ => id) (fun _ _ => Iff.rfl) decoded

theorem name_of_ofName? {name : Bytes} {k : Mnemonic} (known : Mnemonic.ofName? name = some k) :
    k.name = name := by
  simpa using List.find?_some known

private theorem eq_register_of_held {o : Assembly.Operand} {r : Register}
    (held : o.held? = some r) :
    ∃ name, o = .register name ∧ RegisterName.ofName name = .full r ∧ r.isHeld = true := by
  unfold Assembly.Operand.held? at held
  split at held
  · rename_i name
    split at held
    · rename_i q same
      split at held
      · rename_i isHeld
        cases held
        exact ⟨name, rfl, same, isHeld⟩
      · cases held
    · cases held
  · cases held

private theorem mode_ne_of_free {address : Bytes → Word → Prop} {index : Bytes → Nat → Prop}
    {branch : Bool} {mnemonic : Bytes} {o : Assembly.Operand} {x : Operand}
    (related : if branch then o.Targets index mnemonic x else o.Denotes address x)
    (free : o.held?.isSome = false) {r : Register} (held : r.isHeld = true) :
    x.mode ≠ .register (.full r) := by
  intro same
  cases branch with
  | true =>
    cases (show o.Targets index mnemonic x from related) <;> cases same
  | false =>
    cases (show o.Denotes address x from related) with
    | register name =>
      have known : RegisterName.ofName name = .full r := Operand.Mode.register.inj same
      simp [Assembly.Operand.held?, known, held] at free
    | immediate _ | absolute _ | indirect _ | based _ _ => cases same

/-- A register that no operand of the line names is not named by the decoded ones. -/
theorem free_of_instruction (decoded : l.instruction number i = .ok instr)
    (free : i.operands.any (·.held?.isSome) = false) {r : Register} (held : r.isHeld = true) :
    ∀ x ∈ instr.operands, x.mode ≠ .register (.full r) := by
  have related := operands_decoded decoded
  generalize i.operands = line, instr.operands = operands at free related
  induction related with
  | nil => exact fun _ member => absurd member List.not_mem_nil
  | @cons o x _ _ same _ ih =>
    rw [List.any_cons, Bool.or_eq_false_iff] at free
    intro y member
    rcases List.mem_cons.mp member with rfl | later
    · exact mode_ne_of_free same free.1 held
    · exact ih free.2 y later

/-- An operand that names a pointer is decoded to that register. -/
private theorem eq_full_of_held {address : Bytes → Word → Prop} {o : Assembly.Operand}
    {x : Operand} {r : Register} (denotes : o.Denotes address x) (held : o.held? = some r) :
    x = .full r := by
  obtain ⟨name, rfl, known, _⟩ := eq_register_of_held held
  cases denotes
  rw [known]

end

section Effects

variable {m after : Machine} {i : Instr}

/-- A push that succeeds has moved the stack pointer. -/
theorem registers_pushl (pushes : i.mnemonic = .pushl)
    (done : perform (execute i) m = (.ok (), after)) :
    after.registers = m.registers.set .esp (m.registers.esp - 4) ∧ after.pc = m.pc := by
  have opened : perform (execute i) m =
      perform (Exec.operand i 0 >>= fun o => Exec.read o >>= Exec.push) m := by
    unfold execute
    rw [pushes]
  obtain ⟨operand, found, _⟩ := perform_operand (m := m) i 0
  rw [opened, perform_bind, found] at done
  cases operand with
  | error fault => cases done
  | ok o =>
    obtain ⟨value, read, _⟩ := perform_read (m := m) o
    dsimp only at done
    rw [perform_bind, read] at done
    cases value with
    | error fault => cases done
    | ok v =>
      have pushed : perform (Exec.push v) m =
          perform (Exec.change (·.writeWord (m.registers.esp - 4) v))
            { m with registers := m.registers.set .esp (m.registers.esp - 4) } := rfl
      dsimp only at done
      rw [pushed, perform_change] at done
      split at done
      · rename_i written
        obtain ⟨_, _, written⟩ := bind_eq_ok.mp written
        cases written
        cases done
        exact ⟨rfl, rfl⟩
      · cases done

/-- A pop moves the stack pointer and leaves what its operand does not name. -/
theorem steady_popl {r : Register} (pops : i.mnemonic = .popl) (low : Register.eax ≠ r)
    (free : ∀ o ∈ i.operands, o.mode ≠ .register (.full r))
    (done : perform (execute i) m = (.ok (), after)) :
    Steady r { m with registers := m.registers.set .esp (m.registers.esp + 4) } after := by
  have opened : perform (execute i) m =
      perform (Exec.pop >>= fun v => Exec.operand i 0 >>= (Exec.write · v)) m := by
    unfold execute
    rw [pops]
  rw [opened, perform_bind, perform_pop] at done
  cases read : m.readWord m.registers.esp with
  | error fault =>
    rw [read] at done
    cases done
  | ok v =>
    rw [read] at done
    have rest : Spares r (Exec.operand i 0 >>= (Exec.write · v)) :=
      .operand fun o member => .write (free o member) low v
    have steady := rest { m with registers := m.registers.set .esp (m.registers.esp + 4) }
    dsimp only at done
    rw [done] at steady
    exact steady

/-- What is known after a frame is left. -/
theorem registers_leave (leaves : i.mnemonic = .leave)
    (done : perform (execute i) m = (.ok (), after)) :
    after.registers.esp = m.registers.ebp + 4 ∧ after.registers.edi = m.registers.edi ∧
      after.pc = m.pc := by
  have opened : perform (execute i) m = perform (Exec.pop >>= Exec.setRegister .ebp)
      { m with registers := m.registers.set .esp m.registers.ebp } := by
    unfold execute
    rw [leaves]
    rfl
  rw [opened, perform_bind, perform_pop] at done
  split at done
  · rename_i popped
    split at popped
    · cases popped
      cases done
      exact ⟨rfl, rfl, rfl⟩
    · cases popped
  · cases done

/-- Whether an instruction goes to a label of the program. -/
def Mnemonic.isJump : Mnemonic → Bool
  | .jmp | .jump _ => true
  | _ => false

/-- A jump changes no register. -/
theorem registers_jump (jumps : i.mnemonic.isJump = true)
    (done : perform (execute i) m = (.ok (), after)) :
    after.registers = m.registers ∧
      (after.pc = m.pc ∨ ∃ o ∈ i.operands, after.pc = o.destination.index) := by
  have goes : perform (Exec.operand i 0 >>= fun o => Exec.setPc o.destination.index) m =
      (.ok (), after) → after.registers = m.registers ∧ ∃ o ∈ i.operands,
        after.pc = o.destination.index := by
    intro done
    obtain ⟨operand, found, known⟩ := perform_operand (m := m) i 0
    rw [perform_bind, found] at done
    cases operand with
    | error fault => cases done
    | ok o =>
      cases done
      exact ⟨rfl, o, List.mem_of_getElem? (known o rfl), rfl⟩
  cases same : i.mnemonic with
  | jmp =>
    have opened : perform (execute i) m =
        perform (Exec.operand i 0 >>= fun o => Exec.setPc o.destination.index) m := by
      unfold execute
      rw [same]
    obtain ⟨kept, gone⟩ := goes (opened.symm.trans done)
    exact ⟨kept, .inr gone⟩
  | jump condition =>
    have opened : perform (execute i) m =
        if m.flags.holds condition then
          perform (Exec.operand i 0 >>= fun o => Exec.setPc o.destination.index) m
        else (.ok (), m) := by
      unfold execute
      rw [same]
      dsimp only
      rw [perform_bind, perform_get]
      dsimp only
      split <;> rfl
    rw [opened] at done
    split at done
    · obtain ⟨kept, gone⟩ := goes done
      exact ⟨kept, .inr gone⟩
    · cases done
      exact ⟨rfl, .inl rfl⟩
  | _ =>
    rw [same] at jumps
    cases jumps

/-- A call of a routine outside the program. -/
theorem spares_call {r : Register} (calls : i.mnemonic = .call) (low : Register.eax ≠ r)
    (outside : ∀ o ∈ i.operands, o.destination.index < 0) : Spares r (execute i) := by
  unfold execute
  rw [calls]
  refine .operand fun o member => ?_
  unfold callTo
  rw [if_pos (outside o member)]
  exact .call low _

end Effects

namespace Pointers

variable {l : Assembly.Layout} {number : Nat} {i : Assembly.Instruction} {instr : Instr}
  {p q : Pointers} {m after : Machine}

/-- What is known about registers stays true when they are left alone. -/
theorem Describes.steady (describes : p.Describes m.registers)
    (kept : ∀ r : Register, r.isHeld = true → Steady r m after) :
    p.Describes after.registers ∧ after.pc = m.pc :=
  ⟨⟨(kept .esp rfl).register.trans describes.esp,
    fun known => (kept .ebp rfl).register.trans (describes.ebp known),
    fun known => (kept .edi rfl).register.trans (describes.edi known)⟩, (kept .esp rfl).pc⟩

private theorem ne_of_held {r q : Register} (held : r.isHeld = true) (other : q.isHeld = false) :
    q ≠ r := by
  rintro rfl
  rw [held] at other
  cases other

private theorem two_operands {address : Bytes → Word → Prop} {index : Bytes → Nat → Prop}
    {a b : Assembly.Operand} {line : List Assembly.Operand} {operands : List Operand}
    (two : line = [a, b]) (plain : isBranch i.mnemonic = false)
    (related : List.Forall₂ (fun o x => if isBranch i.mnemonic then o.Targets index i.mnemonic x
      else o.Denotes address x) line operands) :
    ∃ x y, operands = [x, y] ∧ a.Denotes address x ∧ b.Denotes address y := by
  rw [two] at related
  simp only [plain, Bool.false_eq_true, if_false] at related
  cases related with
  | cons first rest =>
    cases rest with
    | cons second none =>
      cases none
      exact ⟨_, _, rfl, first, second⟩

/-- Instructions that name a pointer. -/
private theorem Describes.named (describes : p.Describes m.registers)
    (decoded : l.instruction number i = .ok instr)
    (moves : p.named instr.mnemonic i.operands = some q)
    (done : perform (execute instr) m = (.ok (), after)) :
    q.Describes after.registers ∧ after.pc = m.pc := by
  have related := operands_decoded decoded
  have spelled := name_of_ofName? (ofName?_of_instruction decoded)
  rcases instr with ⟨mnemonic, operands, line⟩
  dsimp only at moves related spelled
  unfold named at moves
  split at moves
  · rename_i source target same
    obtain ⟨x, y, rfl, first, second⟩ := two_operands same (spelled ▸ rfl) related
    split at moves
    · rename_i sourceHeld targetHeld
      obtain rfl := eq_full_of_held first sourceHeld
      obtain rfl := eq_full_of_held second targetHeld
      cases moves
      cases done
      exact ⟨⟨describes.esp, fun known => Option.some.inj known ▸ describes.esp, describes.edi⟩, rfl⟩
    · rename_i sourceHeld targetHeld
      obtain rfl := eq_full_of_held first sourceHeld
      obtain rfl := eq_full_of_held second targetHeld
      cases moves
      cases done
      exact ⟨⟨describes.esp, describes.ebp, fun known => Option.some.inj known ▸ describes.esp⟩, rfl⟩
    · rename_i sourceHeld targetHeld
      obtain rfl := eq_full_of_held first sourceHeld
      obtain rfl := eq_full_of_held second targetHeld
      obtain ⟨w, known, rfl⟩ := Option.map_eq_some_iff.mp moves
      cases done
      exact ⟨⟨describes.edi known, describes.ebp, describes.edi⟩, rfl⟩
    · cases moves
  · rename_i operation n target same
    obtain ⟨x, y, rfl, first, second⟩ :=
      two_operands same (spelled ▸ (by cases operation <;> rfl)) related
    split at moves
    · rename_i held
      obtain rfl := eq_full_of_held second held
      cases first with
      | immediate value =>
        cases value
        cases moves
        cases done
        refine ⟨⟨?_, describes.ebp, describes.edi⟩, rfl⟩
        rw [← describes.esp]
        rfl
    · cases moves
  · cases moves

/-- An instruction makes of the pointers what its line tells. It goes on with the next one, or it
jumps. -/
theorem Describes.execute (describes : p.Describes m.registers)
    (decoded : l.instruction number i = .ok instr) (moves : p.after i = some q)
    (outside : instr.mnemonic = .call → ∀ o ∈ instr.operands, o.destination.index < 0)
    (done : perform (execute instr) m = (.ok (), after)) :
    q.Describes after.registers ∧ (after.pc = m.pc ∨ instr.mnemonic.isJump = true ∧
      ∃ o ∈ instr.operands, after.pc = o.destination.index) := by
  unfold Pointers.after at moves
  rw [ofName?_of_instruction decoded] at moves
  have plain (fine : instr.mnemonic.isPlain = true)
      (free : i.operands.any (·.held?.isSome) = false) :
      p.Describes after.registers ∧ after.pc = m.pc := by
    refine describes.steady fun r held => ?_
    have spared := spares_execute fine (ne_of_held held rfl) (ne_of_held held rfl)
      (free_of_instruction decoded free held) m
    rwa [done] at spared
  split at moves
  · cases moves
  · cases moves
  · rename_i same
    cases moves
    obtain ⟨registers, pc⟩ := registers_pushl (Option.some.inj same) done
    rw [registers]
    refine ⟨⟨?_, describes.ebp, describes.edi⟩, .inl pc⟩
    rw [← describes.esp]
    rfl
  · rename_i same
    obtain ⟨w, known, rfl⟩ := Option.map_eq_some_iff.mp moves
    obtain ⟨esp, edi, pc⟩ := registers_leave (Option.some.inj same) done
    refine ⟨⟨?_, fun none => ?_, fun known => edi.trans (describes.edi known)⟩, .inl pc⟩
    · rw [esp, describes.ebp known]
    · cases none
  · rename_i mnemonic notRet notPush notLeave same
    obtain rfl := Option.some.inj same
    split at moves
    · obtain ⟨described, pc⟩ := describes.named decoded moves done
      exact ⟨described, .inl pc⟩
    · rename_i free
      rw [Bool.not_eq_true] at free
      have freed {r : Register} (held : r.isHeld = true) := free_of_instruction decoded free held
      cases moves
      cases kind : instr.mnemonic with
      | popl =>
        obtain ⟨described, pc⟩ := Describes.steady
          (m := { m with registers := m.registers.set .esp (m.registers.esp + 4) })
          (p := { p with esp := p.esp + 4 })
          ⟨congrArg (· + 4) describes.esp, describes.ebp, describes.edi⟩
          fun r held => steady_popl kind (ne_of_held held rfl) (freed held) done
        exact ⟨by simpa using described, .inl pc⟩
      | call =>
        have kept (r : Register) (held : r.isHeld = true) : Steady r m after := by
          have spared := spares_call kind (ne_of_held held rfl) (outside kind) m
          rwa [done] at spared
        obtain ⟨described, pc⟩ := describes.steady kept
        exact ⟨by simpa using described, .inl pc⟩
      | jmp | jump _ =>
        obtain ⟨registers, goes⟩ := registers_jump (by rw [kind]; rfl) done
        rw [registers]
        exact ⟨by simpa using describes, goes.imp id fun gone => ⟨rfl, gone⟩⟩
      | pushl => exact absurd kind notPush
      | leave => exact absurd kind notLeave
      | ret => exact absurd kind notRet
      | _ =>
        obtain ⟨described, pc⟩ := plain (by rw [kind]; rfl) free
        exact ⟨by simpa using described, .inl pc⟩

end Pointers

end Machine

end Onepass
