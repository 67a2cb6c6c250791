import Onepass.Proofs.Machine.Access

/-! What no action of the machine does. It leaves the program, the labels and the count of steps
alone. Bytes outside the memory in use are neither changed nor looked at: with other bytes there, an
action gives the same result and changes the same. The same holds of the bound on the steps of a run.
An instruction with the operands it needs misses none, and it ends the program only by a return to the
sentinel or by a routine for that. -/
namespace Onepass.Machine

/-- What an action leaves alone. -/
structure Keeps (m after : Machine) : Prop where
  text : after.text = m.text
  labels : after.labels = m.labels
  steps : after.steps = m.steps
  outside : ∀ a, accessible a 1 = false → after.memory.read a = m.memory.read a
  /-- A sink that takes everything goes on to do so. -/
  room : m.sink.room = none → after.sink.room = none

theorem Keeps.refl (m : Machine) : Keeps m m := ⟨rfl, rfl, rfl, fun _ _ => rfl, id⟩

theorem Keeps.trans {m middle after : Machine} (first : Keeps m middle)
    (second : Keeps middle after) : Keeps m after where
  text := second.text.trans first.text
  labels := second.labels.trans first.labels
  steps := second.steps.trans first.steps
  outside a far := (second.outside a far).trans (first.outside a far)
  room unlimited := second.room (first.room unlimited)

/-- Whether two memories hold the same bytes where the memory is in use. -/
def Memory.Alike (m n : Memory) : Prop := Memory.Same Assembly.dataBase.toNat memorySize m n

theorem accessible_iff {a : Word} {size : Nat} :
    accessible a size = true ↔
      Assembly.dataBase.toNat ≤ a.toNat ∧ a.toNat + size ≤ memorySize := by
  simp [accessible, UInt32.le_iff_toNat_le]

section

variable {m n : Memory} {a : Word}

theorem Memory.Alike.read (alike : m.Alike n) (fine : accessible a 1 = true) :
    n.read a = m.read a := by
  obtain ⟨above, below⟩ := accessible_iff.mp fine
  exact alike a above (by omega)

theorem Memory.Alike.readWord (alike : m.Alike n) (fine : accessible a 4 = true) :
    n.readWord a = m.readWord a := by
  obtain ⟨above, below⟩ := accessible_iff.mp fine
  have small : memorySize ≤ 0x100000000 := by decide
  exact Memory.Same.readWord alike above below (by omega)

theorem Memory.Alike.write (alike : m.Alike n) (value : UInt8) :
    (m.write a value).Alike (n.write a value) := by
  intro b above below
  rw [Memory.read_write, Memory.read_write, alike b above below]

theorem Memory.Alike.writeBytes (alike : m.Alike n) (bytes : List UInt8) :
    (m.writeBytes a bytes).Alike (n.writeBytes a bytes) := by
  induction bytes generalizing m n a with
  | nil => exact alike
  | cons b rest ih => exact ih (alike.write b)

end

/-- Whether an action stays within the machine. -/
structure Confined {α : Type} (action : Exec α) : Prop where
  keeps : ∀ m, Keeps m (perform action m).2
  blind : ∀ m memory, m.memory.Alike memory →
    ∃ after, (perform action m).2.memory.Alike after ∧
      perform action { m with memory } =
        ((perform action m).1, { (perform action m).2 with memory := after })
  unbound : ∀ m maxSteps, perform action { m with maxSteps } =
    ((perform action m).1, { (perform action m).2 with maxSteps })

theorem Confined.bind {α β : Type} {action : Exec α} {next : α → Exec β}
    (first : Confined action) (later : ∀ v, Confined (next v)) : Confined (action >>= next) where
  keeps m := by
    have kept := first.keeps m
    rw [perform_bind]
    generalize perform action m = result at kept
    rcases result with ⟨_ | v, middle⟩
    · exact kept
    · exact kept.trans ((later v).keeps middle)
  blind m memory alike := by
    obtain ⟨between, still, done⟩ := first.blind m memory alike
    rw [perform_bind, perform_bind, done]
    generalize perform action m = result at still
    rcases result with ⟨_ | v, middle⟩
    · exact ⟨between, still, rfl⟩
    · exact (later v).blind middle between still
  unbound m maxSteps := by
    rw [perform_bind, perform_bind, first.unbound]
    generalize perform action m = result
    rcases result with ⟨_ | v, middle⟩
    · rfl
    · exact (later v).unbound middle maxSteps

/-- An action that has nothing to do with memory. -/
theorem Confined.of_apart {α : Type} {action : Exec α} (keeps : ∀ m, Keeps m (perform action m).2)
    (same : ∀ m, (perform action m).2.memory = m.memory)
    (apart : ∀ m memory, perform action { m with memory } =
      ((perform action m).1, { (perform action m).2 with memory }))
    (unbound : ∀ m maxSteps, perform action { m with maxSteps } =
      ((perform action m).1, { (perform action m).2 with maxSteps })) : Confined action where
  keeps := keeps
  blind m memory alike := ⟨memory, by rwa [same], apart m memory⟩
  unbound := unbound

/-- Whether a fault may come from an instruction that has the operands it needs, other than by
ending the program. -/
def Fault.isOrdinary : Fault → Bool
  | .aborted | .missingOperand _ _ | .unsupported _ | .stepLimit _ => false
  | _ => true

/-- What a result tells when the program goes on, or stops at a fault. That the fault is ordinary is
only known of instructions that are `formed`. -/
structure Calm {α : Type} (formed : Prop) (m : Machine) (result : Except Fault α × Machine) :
    Prop where
  halted : result.2.halted = m.halted
  status : result.2.status = m.status
  goesOn : result.1 ≠ .error .aborted
  ordinary : formed → ∀ fault, result.1 = .error fault → fault.isOrdinary = true

/-- Whether an action stays within the machine and never ends the program. -/
structure Quiet {α : Type} (formed : Prop) (action : Exec α) : Prop extends Confined action where
  calm : ∀ m, Calm formed m (perform action m)

namespace Quiet

variable {α β : Type} {action : Exec α} {formed : Prop}

theorem bind {next : α → Exec β} (first : Quiet formed action)
    (later : ∀ v, Quiet formed (next v)) : Quiet formed (action >>= next) where
  toConfined := first.toConfined.bind fun v => (later v).toConfined
  calm m := by
    obtain ⟨halted, status, goesOn, ordinary⟩ := first.calm m
    rw [perform_bind]
    generalize perform action m = result at halted status goesOn ordinary
    rcases result with ⟨fault | v, middle⟩
    · refine ⟨halted, status, fun same => goesOn ?_, fun fine other same => ordinary fine other ?_⟩
      · cases same
        rfl
      · cases same
        rfl
    · have rest := (later v).calm middle
      exact ⟨rest.halted.trans halted, rest.status.trans status, rest.goesOn, rest.ordinary⟩

/-- An action that succeeds and has nothing to do with memory. -/
theorem of_apart (keeps : ∀ m, Keeps m (perform action m).2)
    (same : ∀ m, (perform action m).2.memory = m.memory)
    (apart : ∀ m memory, perform action { m with memory } =
      ((perform action m).1, { (perform action m).2 with memory }))
    (unbound : ∀ m maxSteps, perform action { m with maxSteps } =
      ((perform action m).1, { (perform action m).2 with maxSteps }))
    (calm : ∀ m, Calm formed m (perform action m)) : Quiet formed action :=
  ⟨.of_apart keeps same apart unbound, calm⟩

/-- An action that changes only registers, flags or the next instruction. -/
private theorem of_change {f : Machine → Machine} (keeps : ∀ m, Keeps m (f m))
    (same : ∀ m, (f m).memory = m.memory)
    (apart : ∀ m memory, f { m with memory } = { f m with memory })
    (unbound : ∀ m maxSteps, f { m with maxSteps } = { f m with maxSteps })
    (halted : ∀ m, (f m).halted = m.halted) (status : ∀ m, (f m).status = m.status) :
    Quiet formed (modify f : Exec PUnit) :=
  of_apart keeps same (fun m memory => congrArg (Prod.mk _) (apart m memory))
    (fun m maxSteps => congrArg (Prod.mk _) (unbound m maxSteps))
    fun m => ⟨halted m, status m, nofun, fun _ _ impossible => nomatch impossible⟩

theorem pure (a : α) : Quiet formed (Pure.pure a : Exec α) :=
  of_apart (fun m => .refl m) (fun _ => rfl) (fun _ _ => rfl) (fun _ _ => rfl)
    fun _ => ⟨rfl, rfl, nofun, fun _ _ impossible => nomatch impossible⟩

theorem throw {fault : Fault} (goesOn : fault ≠ .aborted)
    (ordinary : formed → fault.isOrdinary = true) :
    Quiet formed (MonadExcept.throw fault : Exec α) := by
  refine of_apart (fun m => .refl m) (fun _ => rfl) (fun _ _ => rfl) (fun _ _ => rfl)
    fun _ => ⟨rfl, rfl, ?_, ?_⟩
  · rintro ⟨⟩
    exact goesOn rfl
  · rintro fine _ ⟨⟩
    exact ordinary fine

/-- What follows a look at the state outside memory. -/
theorem get {next : Machine → Exec β} (apart : ∀ m memory, next { m with memory } = next m)
    (unbound : ∀ m maxSteps, next { m with maxSteps } = next m)
    (later : ∀ m, Quiet formed (next m)) : Quiet formed (MonadState.get >>= next) where
  keeps m := (later m).keeps m
  blind m memory alike := by
    have opened (m : Machine) : perform (MonadState.get >>= next) m = perform (next m) m := rfl
    rw [opened, opened, apart m memory]
    exact (later m).blind m memory alike
  unbound m maxSteps := by
    have opened (m : Machine) : perform (MonadState.get >>= next) m = perform (next m) m := rfl
    rw [opened, opened, unbound m maxSteps]
    exact (later m).unbound m maxSteps
  calm m := (later m).calm m

/-- A look at the registers and the memory in use. -/
theorem look {f : Machine → Except Fault α}
    (same : ∀ m n : Machine, m.memory.Alike n.memory → n.registers = m.registers → f n = f m)
    (ordinary : ∀ m fault, f m = .error fault → fault.isOrdinary = true) :
    Quiet formed (Exec.look f) where
  keeps m := by
    rw [perform_look]
    exact .refl m
  blind m memory alike := by
    rw [perform_look, perform_look, same m { m with memory } alike rfl]
    exact ⟨memory, alike, rfl⟩
  unbound m maxSteps := by
    rw [perform_look, perform_look, same m { m with maxSteps } (fun _ _ _ => rfl) rfl]
  calm m := by
    rw [perform_look]
    exact ⟨rfl, rfl, fun aborted => (nomatch ordinary m _ aborted), fun _ => ordinary m⟩

/-- A change of bytes in the memory in use. -/
private theorem change {size : Nat} {a : Word} {f : Memory → Memory}
    (outside : accessible a size = true → ∀ m b, accessible b 1 = false →
      (f m).read b = m.read b)
    (same : ∀ m n : Memory, m.Alike n → (f m).Alike (f n)) :
    Quiet formed (Exec.change fun m => do
      checkAccess a size
      return { m with memory := f m.memory }) := by
  cases fine : accessible a size with
  | false =>
    have fault (m : Machine) : perform (Exec.change fun m => do
        checkAccess a size
        return { m with memory := f m.memory }) m = (.error (.badAccess size a), m) := by
      simp only [perform_change, checkAccess, fine]
      rfl
    refine of_apart (fun m => ?_) (fun m => ?_) (fun m memory => ?_) (fun m maxSteps => ?_)
      fun m => ?_
    · rw [fault]
      exact .refl m
    · rw [fault]
    · rw [fault, fault]
    · rw [fault, fault]
    · rw [fault]
      refine ⟨rfl, rfl, nofun, ?_⟩
      rintro _ _ ⟨⟩
      rfl
  | true =>
    have done (m : Machine) : perform (Exec.change fun m => do
        checkAccess a size
        return { m with memory := f m.memory }) m =
          (.ok (), { m with memory := f m.memory }) := by
      simp only [perform_change, checkAccess, fine, if_true]
      rfl
    refine ⟨⟨fun m => ?_, fun m memory alike => ⟨f memory, ?_, ?_⟩, fun m maxSteps => ?_⟩,
      fun m => ?_⟩
    · rw [done]
      exact ⟨rfl, rfl, rfl, fun b far => outside fine m.memory b far, id⟩
    · rw [done]
      exact same _ _ alike
    · rw [done, done]
    · rw [done, done]
    · rw [done]
      exact ⟨rfl, rfl, nofun, fun _ _ impossible => nomatch impossible⟩

theorem writeByte (a : Word) (value : UInt8) :
    Quiet formed (Exec.change (Machine.writeByte · a value)) := by
  refine change (f := fun memory => memory.write a value) (fun fine memory b far => ?_)
    fun m n alike => alike.write value
  rw [Memory.read_write, if_neg]
  rintro rfl
  rw [fine] at far
  cases far

theorem writeWord (a value : Word) : Quiet formed (Exec.change (·.writeWord a value)) := by
  refine change (f := fun memory => memory.writeWord a value) (fun fine memory b far => ?_)
    fun m n alike => alike.writeBytes _
  obtain ⟨above, below⟩ := accessible_iff.mp fine
  have small : memorySize ≤ 0x100000000 := by decide
  have apart : b.toNat < Assembly.dataBase.toNat ∨ memorySize < b.toNat + 1 := by
    by_contra near
    have fine : accessible b 1 = true := accessible_iff.mpr (by omega)
    rw [fine] at far
    cases far
  have same : Memory.Same b.toNat (b.toNat + 1) memory (memory.writeWord a value) :=
    Memory.same_writeWord value (by omega) (by omega)
  exact same b (le_refl _) (Nat.lt_succ_self _)

end Quiet

/-! Reading goes wrong only at addresses. -/

section

variable {m n : Machine} {a : Word} {fault : Fault}

private theorem checkAccess_fault {size : Nat} (failed : checkAccess a size = .error fault) :
    fault.isOrdinary = true := by
  unfold checkAccess at failed
  split at failed
  · cases failed
  · cases failed
    rfl

/-- What goes wrong in a chain of two results goes wrong in one of them. -/
private theorem bind_eq_error {α β ε : Type} {first : Except ε α} {next : α → Except ε β} {e : ε}
    (failed : (first >>= next) = .error e) :
    first = .error e ∨ ∃ a, first = .ok a ∧ next a = .error e := by
  cases first with
  | error _ =>
    cases failed
    exact .inl rfl
  | ok a => exact .inr ⟨a, rfl, failed⟩

private theorem readWord_ordinary (failed : m.readWord a = .error fault) :
    fault.isOrdinary = true := by
  rcases bind_eq_error failed with failed | ⟨_, _, failed⟩
  · exact checkAccess_fault failed
  · cases failed

private theorem readByte_ordinary (failed : m.readByte a = .error fault) :
    fault.isOrdinary = true := by
  rcases bind_eq_error failed with failed | ⟨_, _, failed⟩
  · exact checkAccess_fault failed
  · cases failed

private theorem readWord_alike (alike : m.memory.Alike n.memory) (a : Word) :
    n.readWord a = m.readWord a := by
  unfold Machine.readWord checkAccess
  split
  · rename_i fine
    simp only [ok_bind, alike.readWord fine]
  · rfl

private theorem readByte_alike (alike : m.memory.Alike n.memory) (a : Word) :
    n.readByte a = m.readByte a := by
  unfold Machine.readByte checkAccess
  split
  · rename_i fine
    simp only [ok_bind, alike.read fine]
  · rfl

private theorem readTextWithin_alike (alike : m.memory.Alike n.memory) (fuel : Nat) (a : Word) :
    n.readTextWithin fuel a = m.readTextWithin fuel a := by
  induction fuel generalizing a with
  | zero => rfl
  | succ fuel ih => simp only [Machine.readTextWithin, readByte_alike alike, ih]

private theorem readText_alike (alike : m.memory.Alike n.memory) (a : Word) :
    n.readText a = m.readText a :=
  readTextWithin_alike alike _ a

private theorem readText_ordinary (failed : m.readText a = .error fault) :
    fault.isOrdinary = true := by
  unfold Machine.readText at failed
  generalize memorySize + 1 - a.toNat = fuel at failed
  induction fuel generalizing a with
  | zero =>
    cases failed
    rfl
  | succ fuel ih =>
    rcases bind_eq_error failed with failed | ⟨b, _, failed⟩
    · exact readByte_ordinary failed
    · split at failed
      · cases failed
      · rcases bind_eq_error failed with failed | ⟨_, _, failed⟩
        · exact ih failed
        · cases failed

private theorem argument_alike (alike : m.memory.Alike n.memory)
    (same : n.registers = m.registers) (index : Nat) :
    Routine.argument n index = Routine.argument m index := by
  rw [Routine.argument, Routine.argument, same, readWord_alike alike]

private theorem expand_alike (alike : m.memory.Alike n.memory) (same : n.registers = m.registers)
    (next : Nat) (format : Bytes) :
    Routine.expand n next format = Routine.expand m next format := by
  have convert (letter : UInt8) (value : Word) :
      Routine.convert n letter value = Routine.convert m letter value := by
    simp only [Routine.convert, readText_alike alike]
  fun_induction Routine.expand m next format with
  | case1 => rfl
  | case2 => simp [Routine.expand]
  | case3 next rest ih => simp only [Routine.expand, if_true, ih]
  | case4 next letter rest other ih =>
    simp only [Routine.expand, if_true, other, if_false, argument_alike alike same, convert, ih]
  | case5 next b rest other ih =>
    cases rest with
    | nil => simp only [Routine.expand, other, if_false]
    | cons _ _ => simp only [Routine.expand, other, if_false, ih]

private theorem convert_ordinary {letter : UInt8} {value : Word}
    (failed : Routine.convert m letter value = .error fault) : fault.isOrdinary = true := by
  unfold Routine.convert at failed
  split at failed
  · cases failed
  split at failed
  · cases failed
  split at failed
  · exact readText_ordinary failed
  · cases failed
    rfl

private theorem expand_ordinary {next : Nat} {format : Bytes}
    (failed : Routine.expand m next format = .error fault) : fault.isOrdinary = true := by
  fun_induction Routine.expand m next format with
  | case1 | case2 => cases failed
  | case3 next rest ih | case5 next b rest other ih =>
    rcases bind_eq_error failed with failed | ⟨_, _, failed⟩
    · exact ih failed
    · cases failed
  | case4 next letter rest other ih =>
    rcases bind_eq_error failed with failed | ⟨_, _, failed⟩
    · exact readWord_ordinary failed
    rcases bind_eq_error failed with failed | ⟨_, _, failed⟩
    · exact convert_ordinary failed
    rcases bind_eq_error failed with failed | ⟨_, _, failed⟩
    · exact ih failed
    · cases failed

private theorem firstText_ordinary
    (failed : (do m.readText (← Routine.argument m 0) : Except Fault Bytes) = .error fault) :
    fault.isOrdinary = true := by
  rcases bind_eq_error failed with failed | ⟨_, _, failed⟩
  · exact readWord_ordinary failed
  · exact readText_ordinary failed

end

namespace Quiet

variable {formed : Prop}

theorem readWord (a : Word) : Quiet formed (Exec.look (·.readWord a)) :=
  look (fun _ _ alike _ => readWord_alike alike a) fun _ _ failed => readWord_ordinary failed

theorem readByte (a : Word) : Quiet formed (Exec.look (Machine.readByte · a)) :=
  look (fun _ _ alike _ => readByte_alike alike a) fun _ _ failed => readByte_ordinary failed

theorem getRegister (r : Register) : Quiet formed (Exec.getRegister r) :=
  get (fun _ _ => rfl) (fun _ _ => rfl) fun _ => pure _

theorem setRegister (r : Register) (value : Word) : Quiet formed (Exec.setRegister r value) :=
  of_change (fun _ => ⟨rfl, rfl, rfl, fun _ _ => rfl, id⟩) (fun _ => rfl) (fun _ _ => rfl)
    (fun _ _ => rfl) (fun _ => rfl) fun _ => rfl

theorem setFlags (flags : Flags) : Quiet formed (Exec.setFlags flags) :=
  of_change (fun _ => ⟨rfl, rfl, rfl, fun _ _ => rfl, id⟩) (fun _ => rfl) (fun _ _ => rfl)
    (fun _ _ => rfl) (fun _ => rfl) fun _ => rfl

theorem setPc (pc : Int) : Quiet formed (Exec.setPc pc) :=
  of_change (fun _ => ⟨rfl, rfl, rfl, fun _ _ => rfl, id⟩) (fun _ => rfl) (fun _ _ => rfl)
    (fun _ _ => rfl) (fun _ => rfl) fun _ => rfl

theorem readRegister (name : RegisterName) : Quiet formed (Exec.readRegister name) := by
  cases name with
  | full r => exact getRegister r
  | al => exact (getRegister .eax).bind fun _ => pure _
  | unknown name => exact throw nofun fun _ => rfl

theorem writeRegister (name : RegisterName) (value : Word) :
    Quiet formed (Exec.writeRegister name value) := by
  cases name with
  | full r => exact setRegister r value
  | al => exact (getRegister .eax).bind fun _ => setRegister _ _
  | unknown name => exact throw nofun fun _ => rfl

theorem address (o : Operand) : Quiet formed (Exec.address o) := by
  rcases o with ⟨_ | _ | ⟨_, _ | base⟩ | _, _⟩
  · exact throw nofun fun _ => rfl
  · exact throw nofun fun _ => rfl
  · exact pure _
  · exact (readRegister base).bind fun _ => pure _
  · exact throw nofun fun _ => rfl

theorem read (o : Operand) : Quiet formed (Exec.read o) := by
  rcases o with ⟨_ | name | _ | _, _⟩
  · exact pure _
  · exact readRegister name
  · exact (address _).bind readWord
  · exact (address _).bind readWord

theorem write (o : Operand) (value : Word) : Quiet formed (Exec.write o value) := by
  rcases o with ⟨_ | name | _ | _, _⟩
  · exact (address _).bind fun a => writeWord a value
  · exact writeRegister name value
  · exact (address _).bind fun a => writeWord a value
  · exact (address _).bind fun a => writeWord a value

theorem readOperandByte (o : Operand) : Quiet formed (Exec.readByte o) := by
  rcases o with ⟨_ | name | _ | _, _⟩
  · exact (read _).bind fun _ => pure _
  · exact (read _).bind fun _ => pure _
  · exact (address _).bind readByte
  · exact (address _).bind readByte

theorem writeOperandByte (o : Operand) (value : UInt8) :
    Quiet formed (Exec.writeByte o value) := by
  rcases o with ⟨_ | name | _ | _, _⟩
  · exact (address _).bind fun a => writeByte a value
  · exact writeRegister name _
  · exact (address _).bind fun a => writeByte a value
  · exact (address _).bind fun a => writeByte a value

theorem operand {i : Instr} {index : Nat} (there : formed → index < i.operands.length) :
    Quiet formed (Exec.operand i index) := by
  unfold Exec.operand
  split
  · exact pure _
  · rename_i missing
    refine throw nofun fun fine => ?_
    rw [List.getElem?_eq_none_iff] at missing
    exact absurd (there fine) (by omega)

theorem push (value : Word) : Quiet formed (Exec.push value) :=
  (getRegister _).bind fun _ => (setRegister _ _).bind fun _ => writeWord _ value

theorem pop : Quiet formed Exec.pop :=
  (getRegister _).bind fun _ => (readWord _).bind fun _ => (setRegister _ _).bind fun _ => pure _

private theorem output (text : Bytes) : Quiet formed (Routine.output text) :=
  of_apart (fun _ => ⟨rfl, rfl, rfl, fun _ _ => rfl, congrArg (Option.map _)⟩) (fun _ => rfl)
    (fun _ _ => rfl) (fun _ _ => rfl)
    fun _ => ⟨rfl, rfl, nofun, fun _ _ impossible => nomatch impossible⟩

theorem printf : Quiet formed Routine.printf.run := by
  refine (look (fun m n alike same => ?_) fun _ _ failed => firstText_ordinary failed).bind
    fun format => (look (fun m n alike same => expand_alike alike same 1 format)
      fun _ _ failed => expand_ordinary failed).bind fun shown => (output shown).bind
      fun written => (setRegister _ _).bind fun _ => ?_
  · simp only [argument_alike alike same, readText_alike alike]
  · split
    · exact pure _
    · exact throw nofun fun _ => rfl

theorem puts : Quiet formed Routine.puts.run := by
  refine (look (fun m n alike same => ?_) fun _ _ failed => firstText_ordinary failed).bind
    fun shown => (output _).bind fun written => (setRegister _ _).bind fun _ => ?_
  · simp only [argument_alike alike same, readText_alike alike]
  · split
    · exact pure _
    · exact throw nofun fun _ => rfl

/-- Gives out a block, or nothing when there is no room for it. -/
private theorem allocate (size : Word) : Quiet formed (do
    let m ← MonadState.get
    if heapLimit < m.heap.toNat + size.toNat then Exec.setRegister .eax 0
    else
      set { m with heap := Routine.roundUp (m.heap + size) }
      Exec.setRegister .eax m.heap : Exec Unit) := by
  have opened (m : Machine) : perform (do
      let m ← MonadState.get
      if heapLimit < m.heap.toNat + size.toNat then Exec.setRegister .eax 0
      else
        set { m with heap := Routine.roundUp (m.heap + size) }
        Exec.setRegister .eax m.heap) m =
      (.ok (), if heapLimit < m.heap.toNat + size.toNat
        then { m with registers := m.registers.set .eax 0 }
        else { m with
          heap := Routine.roundUp (m.heap + size), registers := m.registers.set .eax m.heap }) := by
    rw [perform_bind, perform_get]
    dsimp only
    split <;> rfl
  refine of_apart (fun m => ?_) (fun m => ?_) (fun m memory => ?_) (fun m maxSteps => ?_)
    fun m => ?_
  · rw [opened]
    split <;> exact ⟨rfl, rfl, rfl, fun _ _ => rfl, id⟩
  · rw [opened]
    split <;> rfl
  · rw [opened, opened]
    dsimp only
    split <;> rfl
  · rw [opened, opened]
    dsimp only
    split <;> rfl
  · rw [opened]
    split <;> exact ⟨rfl, rfl, nofun, fun _ _ impossible => nomatch impossible⟩

theorem malloc : Quiet formed Routine.malloc.run :=
  (look (fun _ _ alike same => argument_alike alike same 0)
    fun _ _ failed => readWord_ordinary failed).bind allocate

theorem divideWide (divisor : Word) : Quiet formed (divideWide divisor) := by
  refine of_apart (fun m => ?_) (fun m => ?_) (fun m memory => ?_) (fun m maxSteps => ?_)
    fun m => ?_
  · rw [perform_divideWide]
    split
    · exact .refl m
    · dsimp only
      split
      · exact .refl m
      · exact ⟨rfl, rfl, rfl, fun _ _ => rfl, id⟩
  · rw [perform_divideWide]
    split
    · rfl
    · dsimp only
      split <;> rfl
  · rw [perform_divideWide, perform_divideWide]
    split
    · rfl
    · dsimp only
      split <;> rfl
  · rw [perform_divideWide, perform_divideWide]
    split
    · rfl
    · dsimp only
      split <;> rfl
  · rw [perform_divideWide]
    split
    · refine ⟨rfl, rfl, nofun, ?_⟩
      rintro _ _ ⟨⟩
      rfl
    · dsimp only
      split
      · refine ⟨rfl, rfl, nofun, ?_⟩
        rintro _ _ ⟨⟩
        rfl
      · exact ⟨rfl, rfl, nofun, fun _ _ impossible => nomatch impossible⟩

theorem multiplyWide (factor : Word) : Quiet formed (multiplyWide factor) :=
  of_apart (fun _ => ⟨rfl, rfl, rfl, fun _ _ => rfl, id⟩) (fun _ => rfl) (fun _ _ => rfl)
    (fun _ _ => rfl) fun _ => ⟨rfl, rfl, nofun, fun _ _ impossible => nomatch impossible⟩

end Quiet

/-- How an instruction may end. -/
inductive Ends (formed : Prop) (m : Machine) : Except Fault Unit × Machine → Prop where
  | calm {result : Except Fault Unit × Machine} (calm : Calm formed m result) : Ends formed m result
  | halted {after : Machine} (halted : after.halted = true) : Ends formed m (.ok (), after)
  | aborted {after : Machine} (halted : after.halted = true)
      (status : after.status = Routine.abortStatus) : Ends formed m (.error .aborted, after)

/-- Whether an action stays within the machine and ends the program, if it does, with a status. -/
structure Orderly (formed : Prop) (action : Exec Unit) : Prop extends Confined action where
  ends : ∀ m, Ends formed m (perform action m)

namespace Orderly

variable {α : Type} {formed : Prop}

theorem of_quiet {action : Exec Unit} (quiet : Quiet formed action) : Orderly formed action :=
  ⟨quiet.toConfined, fun m => .calm (quiet.calm m)⟩

theorem bind {action : Exec α} {next : α → Exec Unit} (first : Quiet formed action)
    (later : ∀ v, Orderly formed (next v)) : Orderly formed (action >>= next) where
  toConfined := first.toConfined.bind fun v => (later v).toConfined
  ends m := by
    obtain ⟨halted, status, goesOn, ordinary⟩ := first.calm m
    rw [perform_bind]
    generalize perform action m = result at halted status goesOn ordinary
    rcases result with ⟨fault | v, middle⟩
    · refine .calm ⟨halted, status, fun same => goesOn ?_, fun fine other same =>
        ordinary fine other ?_⟩
      · cases same
        rfl
      · cases same
        rfl
    · have ends := (later v).ends middle
      dsimp only
      generalize perform (next v) middle = result at ends
      cases ends with
      | calm rest =>
        exact .calm ⟨rest.halted.trans halted, rest.status.trans status, rest.goesOn,
          rest.ordinary⟩
      | halted ended => exact .halted ended
      | aborted ended status => exact .aborted ended status

private theorem confined_halt (status : Int) : Confined (Exec.halt status) :=
  .of_apart (fun _ => ⟨rfl, rfl, rfl, fun _ _ => rfl, id⟩) (fun _ => rfl) (fun _ _ => rfl)
    fun _ _ => rfl

theorem halt (status : Int) : Orderly formed (Exec.halt status) :=
  ⟨confined_halt status, fun _ => .halted rfl⟩

theorem routine (routine : Routine) : Orderly formed routine.run := by
  cases routine with
  | printf => exact of_quiet .printf
  | puts => exact of_quiet .puts
  | malloc => exact of_quiet .malloc
  | exit =>
    exact bind (.look (fun _ _ alike same => argument_alike alike same 0)
      fun _ _ failed => readWord_ordinary failed) fun _ => halt _
  | abort =>
    refine ⟨(confined_halt _).bind fun _ => ?_, fun _ => .aborted rfl rfl⟩
    exact .of_apart (fun m => .refl m) (fun _ => rfl) (fun _ _ => rfl) fun _ _ => rfl

theorem call (d : Destination) : Orderly formed (callTo d) := by
  unfold callTo
  split
  · unfold Routine.call
    split
    · exact routine _
    · exact of_quiet (.throw nofun fun _ => rfl)
  · exact of_quiet (.get (fun _ _ => rfl) (fun _ _ => rfl) fun _ =>
      (Quiet.push _).bind fun _ => .setPc _)

end Orderly

/-- Whether an instruction is one of the machine and has the operands it needs. -/
structure Instr.IsFormed (i : Instr) : Prop where
  known : ∀ name, i.mnemonic ≠ .unknown name
  least : i.mnemonic.arity.1 ≤ i.operands.length
  most : i.operands.length ≤ i.mnemonic.arity.2

open Quiet in
/-- An instruction that neither calls nor returns goes on with the program, or stops at a fault. -/
theorem quiet_execute {i : Instr} (stays : i.mnemonic ≠ .call) (goesOn : i.mnemonic ≠ .ret) :
    Quiet i.IsFormed (execute i) := by
  rcases i with ⟨mnemonic, operands, line⟩
  have operand {index : Nat} (below : index < mnemonic.arity.1) :
      Quiet (Instr.IsFormed ⟨mnemonic, operands, line⟩)
        (Exec.operand ⟨mnemonic, operands, line⟩ index) :=
    Quiet.operand fun formed => Nat.lt_of_lt_of_le below formed.least
  cases mnemonic with
  | movl =>
    exact (operand Nat.two_pos).bind fun _ => (read _).bind fun _ =>
      (operand Nat.one_lt_two).bind fun _ => write _ _
  | movb =>
    exact (operand Nat.two_pos).bind fun _ => (readOperandByte _).bind fun _ =>
      (operand Nat.one_lt_two).bind fun _ => writeOperandByte _ _
  | movzbl =>
    exact (operand Nat.two_pos).bind fun _ => (readOperandByte _).bind fun _ =>
      (operand Nat.one_lt_two).bind fun _ => write _ _
  | leal =>
    exact (operand Nat.two_pos).bind fun _ => (address _).bind fun _ =>
      (operand Nat.one_lt_two).bind fun _ => write _ _
  | pushl => exact (operand Nat.one_pos).bind fun _ => (read _).bind fun _ => push _
  | popl => exact pop.bind fun _ => (operand Nat.one_pos).bind fun _ => write _ _
  | arithmetic operation =>
    exact (operand Nat.two_pos).bind fun _ => (operand Nat.one_lt_two).bind fun _ =>
      (read _).bind fun _ => (read _).bind fun _ => (setFlags _).bind fun _ => write _ _
  | cmpl =>
    exact (operand Nat.two_pos).bind fun _ => (operand Nat.one_lt_two).bind fun _ =>
      (read _).bind fun _ => (read _).bind fun _ => setFlags _
  | imull =>
    refine (operand Nat.one_pos).bind fun _ => (read _).bind fun right => ?_
    split
    · exact .multiplyWide right
    · rename_i several
      refine (Quiet.operand fun formed => ?_).bind fun _ => (read _).bind fun _ =>
        get (fun _ _ => rfl) (fun _ _ => rfl) fun _ => (setFlags _).bind fun _ => write _ _
      have least : 1 ≤ operands.length := formed.least
      exact Nat.lt_of_le_of_ne least (Ne.symm several)
  | idivl => exact (operand Nat.one_pos).bind fun _ => (read _).bind fun _ => .divideWide _
  | cdq => exact (getRegister _).bind fun _ => setRegister _ _
  | negl =>
    exact (operand Nat.one_pos).bind fun _ => (read _).bind fun _ =>
      (setFlags _).bind fun _ => write _ _
  | shll =>
    exact (operand Nat.two_pos).bind fun _ => (read _).bind fun _ =>
      (operand Nat.one_lt_two).bind fun _ => (read _).bind fun _ =>
        get (fun _ _ => rfl) (fun _ _ => rfl) fun _ => (setFlags _).bind fun _ => write _ _
  | set comparison =>
    exact get (fun _ _ => rfl) (fun _ _ => rfl) fun _ => (operand Nat.one_pos).bind fun _ =>
      writeOperandByte _ _
  | jmp => exact (operand Nat.one_pos).bind fun _ => setPc _
  | jump condition =>
    refine get (fun _ _ => rfl) (fun _ _ => rfl) fun m => ?_
    split
    · exact (operand Nat.one_pos).bind fun _ => setPc _
    · exact pure _
  | call => exact absurd rfl stays
  | ret => exact absurd rfl goesOn
  | leave =>
    exact (getRegister _).bind fun _ => (setRegister _ _).bind fun _ =>
      pop.bind fun _ => setRegister _ _
  | nop => exact pure _
  | unknown name => exact throw nofun fun formed => absurd rfl (formed.known name)

/-- Every instruction stays within the machine. One that has the operands it needs misses none. -/
theorem orderly_execute (i : Instr) : Orderly i.IsFormed (execute i) := by
  by_cases calls : i.mnemonic = .call
  · have operand : Quiet i.IsFormed (Exec.operand i 0) := Quiet.operand fun formed => by
      have least := formed.least
      rw [calls] at least
      exact least
    unfold execute
    rw [calls]
    exact .bind operand fun target => .call target.destination
  by_cases returns : i.mnemonic = .ret
  · unfold execute
    rw [returns]
    refine .bind .pop fun value => ?_
    split
    · exact .bind (.getRegister _) fun _ => .halt _
    · exact .of_quiet (.setPc _)
  · exact .of_quiet (quiet_execute calls returns)

end Onepass.Machine
