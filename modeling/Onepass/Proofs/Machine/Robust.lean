import Onepass.Proofs.Assembly.Success
import Onepass.Proofs.Machine.Confined

/-! The machine is robust on every assembled program, from every entry and with every sink. Whatever
the program does, the machine keeps its program and its labels, stays inside its memory, finds the
operands it looks for and knows every instruction it meets. -/
namespace Onepass

namespace Assembly

open Machine (Instr Mnemonic)

theorem Layout.isFormed_instruction {l : Layout} {number : Nat} {i : Instruction} {instr : Instr}
    (decoded : l.instruction number i = .ok instr) : instr.IsFormed := by
  unfold Layout.instruction at decoded
  cases found : Mnemonic.ofName? i.mnemonic with
  | none => simp [found] at decoded
  | some mnemonic =>
    simp only [found] at decoded
    split at decoded
    · cases decoded
    · rename_i fits
      obtain ⟨operands, mapped, decoded⟩ := bind_eq_ok.mp decoded
      cases decoded
      have length := length_mapM mapped
      refine ⟨fun name => ?_, by dsimp only; omega, by dsimp only; omega⟩
      rintro rfl
      have listed : Mnemonic.unknown name ∈ Mnemonic.all := List.mem_of_find?_eq_some found
      simp [Mnemonic.all] at listed

/-- The assembler only lets instructions through that have the operands they need. -/
theorem isFormed_of_assemble {text : Bytes} {image : Image} (assembled : assemble text = .ok image) :
    ∀ i ∈ image.text, i.IsFormed := by
  unfold assemble at assembled
  split at assembled
  · cases assembled
  · obtain ⟨layout, _, second⟩ := bind_eq_ok.mp assembled
    intro i member
    rcases (Image.added_lines second).2.2.2 i member with old | ⟨_, _, _, _, _, decoded⟩
    · cases old.val
    · exact Layout.isFormed_instruction decoded

end Assembly

namespace Machine

/-- The machine after a number of steps, whether they fail or not. -/
def after (m : Machine) : (steps : Nat) → Machine
  | 0 => m
  | n + 1 => (m.after n).step.2

/-- What is true of a machine that runs the program of `first`, and of its next step. -/
structure Robust (first m : Machine) : Prop where
  text : m.text = first.text
  labels : m.labels = first.labels
  /-- No byte outside the memory in use has changed. -/
  outside : ∀ a : Word, a < Assembly.dataBase ∨ memorySize ≤ a.toNat →
    m.memory.read a = first.memory.read a
  /-- Bytes outside the memory in use do not matter to the step. -/
  blind : ∀ memory, m.memory.Alike memory → ∃ changed, m.step.2.memory.Alike changed ∧
    step { m with memory } = (m.step.1, { m.step.2 with memory := changed })
  /-- The step finds its operands, and the instruction is one of the machine. -/
  known : ∀ stop, m.step.1 = .error stop →
    (∀ index count, stop.fault ≠ .missingOperand index count) ∧
      ∀ name, stop.fault ≠ .unsupported name
  counted : m.halted = false → 0 ≤ m.pc → m.pc < m.text.size → m.step.2.steps = m.steps + 1
  left : m.halted = false → m.pc < 0 ∨ m.text.size ≤ m.pc →
    m.step = (.error ⟨.leftProgram m.pc, none⟩, m)
  resting : m.halted = true → m.step = (.ok (), m)

section Step

variable {first m : Machine}

theorem fetch?_eq_none_iff : m.fetch? = none ↔ m.pc < 0 ∨ m.text.size ≤ m.pc := by
  unfold fetch?
  split
  · simp [*]
  · rw [Array.getElem?_eq_none_iff]
    omega

/-- A step that leaves the program. -/
theorem step_left (running : m.halted = false) (gone : m.fetch? = none) :
    m.step = (.error ⟨.leftProgram m.pc, none⟩, m) := by
  simp [step, running, gone]

theorem step_halted (halted : m.halted = true) : m.step = (.ok (), m) := by
  simp [step, halted]

/-- How the result of an instruction is reported. -/
def reported (i : Instr) : Except Fault Unit → Except Stop Unit
  | .ok () => .ok ()
  | .error .aborted => .error ⟨.aborted, none⟩
  | .error fault => .error ⟨fault, some i⟩

theorem step_eq_reported {i : Instr} (running : m.halted = false) (fetched : m.fetch? = some i) :
    m.step = (reported i (perform (execute i) m.next).1, (perform (execute i) m.next).2) := by
  rw [step_eq running fetched]
  generalize perform (execute i) m.next = result
  rcases result with ⟨fault | _, _⟩
  · cases fault <;> rfl
  · rfl

theorem fault_of_reported {i : Instr} {result : Except Fault Unit} {stop : Stop}
    (failed : reported i result = .error stop) : result = .error stop.fault := by
  rcases result with fault | _
  · cases fault <;> cases failed <;> rfl
  · cases failed

private theorem outside_of_far {a : Word} (far : a < Assembly.dataBase ∨ memorySize ≤ a.toNat) :
    accessible a 1 = false := by
  rw [← Bool.not_eq_true, accessible_iff]
  rw [UInt32.lt_iff_toNat_lt] at far
  omega

/-- What one step keeps of the program that was loaded. -/
theorem step_keeps (m : Machine) :
    m.step.2.text = m.text ∧ m.step.2.labels = m.labels ∧
      ∀ a, accessible a 1 = false → m.step.2.memory.read a = m.memory.read a := by
  cases running : m.halted with
  | true =>
    rw [step_halted running]
    exact ⟨rfl, rfl, fun _ _ => rfl⟩
  | false =>
    cases fetched : m.fetch? with
    | none =>
      rw [step_left running fetched]
      exact ⟨rfl, rfl, fun _ _ => rfl⟩
    | some i =>
      have kept := (orderly_execute i).keeps m.next
      rw [step_eq_reported running fetched]
      exact ⟨kept.text, kept.labels, kept.outside⟩

/-- A sink without a limit stays so. -/
theorem room_step (unlimited : m.sink.room = none) : m.step.2.sink.room = none := by
  cases running : m.halted with
  | true =>
    rw [step_halted running]
    exact unlimited
  | false =>
    cases fetched : m.fetch? with
    | none =>
      rw [step_left running fetched]
      exact unlimited
    | some i =>
      rw [step_eq_reported running fetched]
      exact ((orderly_execute i).keeps m.next).room unlimited

theorem mem_of_fetch? {i : Instr} (fetched : m.fetch? = some i) : i ∈ m.text := by
  unfold fetch? at fetched
  split at fetched
  · cases fetched
  · exact Array.mem_of_getElem? fetched

/-- Why a step of a program that has the operands it needs may fail. -/
theorem fault_of_step {stop : Stop} (formed : ∀ i ∈ m.text, i.IsFormed)
    (failed : m.step.1 = .error stop) : stop.fault.isOrdinary = true ∨ stop.fault = .aborted := by
  cases running : m.halted with
  | true =>
    rw [step_halted running] at failed
    cases failed
  | false =>
    cases fetched : m.fetch? with
    | none =>
      rw [step_left running fetched] at failed
      cases failed
      exact .inl rfl
    | some i =>
      rw [step_eq_reported running fetched] at failed
      have fault := fault_of_reported failed
      have ends := (orderly_execute i).ends m.next
      generalize perform (execute i) m.next = result at fault ends
      cases ends with
      | calm calm => exact .inl (calm.ordinary (formed i (mem_of_fetch? fetched)) _ fault)
      | halted _ => cases fault
      | aborted _ _ => exact .inr (Except.error.inj fault).symm

/-- A step of a program that has the operands it needs. -/
theorem robust_of_formed (formed : ∀ i ∈ first.text, i.IsFormed) (text : m.text = first.text)
    (labels : m.labels = first.labels)
    (outside : ∀ a, accessible a 1 = false → m.memory.read a = first.memory.read a) :
    Robust first m where
  text := text
  labels := labels
  outside a far := outside a (outside_of_far far)
  blind memory alike := by
    by_cases halted : m.halted = true
    · rw [step_halted halted]
      exact ⟨memory, alike, step_halted halted⟩
    · have running : m.halted = false := Bool.not_eq_true _ ▸ halted
      rcases fetched : m.fetch? with _ | i
      · rw [step_left running fetched]
        exact ⟨memory, alike, step_left running fetched⟩
      · have other : step { m with memory } = _ :=
          step_eq_reported (m := { m with memory }) running fetched
        obtain ⟨changed, still, done⟩ := (orderly_execute i).blind m.next memory alike
        have same : next { m with memory } = { m.next with memory } := rfl
        rw [other, same, done, step_eq_reported running fetched]
        exact ⟨changed, still, rfl⟩
  known stop failed := by
    have ordinary := fault_of_step (text ▸ formed) failed
    constructor
    · rintro index count same
      rw [same] at ordinary
      simp [Fault.isOrdinary] at ordinary
    · rintro name same
      rw [same] at ordinary
      simp [Fault.isOrdinary] at ordinary
  counted running low high := by
    cases fetched : m.fetch? with
    | none =>
      have gone := fetch?_eq_none_iff.mp fetched
      omega
    | some i =>
      rw [step_eq_reported running fetched]
      exact ((orderly_execute i).keeps m.next).steps
  left running gone := step_left running (fetch?_eq_none_iff.mpr gone)
  resting := step_halted

end Step

/-- Every number of steps keeps the program that was loaded. -/
theorem robust_after {first m : Machine} (formed : ∀ i ∈ first.text, i.IsFormed)
    (text : m.text = first.text) (labels : m.labels = first.labels)
    (outside : ∀ a, accessible a 1 = false → m.memory.read a = first.memory.read a) (n : Nat) :
    Robust first (m.after n) := by
  have kept : (m.after n).text = first.text ∧ (m.after n).labels = first.labels ∧
      ∀ a, accessible a 1 = false → (m.after n).memory.read a = first.memory.read a := by
    induction n with
    | zero => exact ⟨text, labels, outside⟩
    | succ n ih =>
      obtain ⟨sameText, sameLabels, same⟩ := step_keeps (m.after n)
      exact ⟨sameText.trans ih.1, sameLabels.trans ih.2.1,
        fun a far => (same a far).trans (ih.2.2 a far)⟩
  exact robust_of_formed formed kept.1 kept.2.1 kept.2.2

section Run

variable {m : Machine}

/-- A step of a machine that has no status yet: it goes on without one, or ends the program. -/
theorem status_step (running : m.halted = false) (clear : m.status = 0) :
    (∀ next, m.step = (.ok (), next) → next.halted = false → next.status = 0) ∧
    ∀ stop next, m.step = (.error stop, next) → next.status ≠ 0 →
      stop.fault = .aborted ∧ next.status = Routine.abortStatus := by
  cases fetched : m.fetch? with
  | none =>
    rw [step_left running fetched]
    refine ⟨nofun, ?_⟩
    rintro _ _ ⟨⟩ set
    exact absurd clear set
  | some i =>
    rw [step_eq_reported running fetched]
    have ends := (orderly_execute i).ends m.next
    generalize perform (execute i) m.next = result at ends
    constructor
    · rintro next same open_
      obtain ⟨_, rfl⟩ := Prod.mk.inj same
      cases ends with
      | calm calm => exact calm.status.trans clear
      | halted ended | aborted ended _ =>
        rw [ended] at open_
        cases open_
    · rintro stop next same set
      obtain ⟨failed, rfl⟩ := Prod.mk.inj same
      have fault := fault_of_reported failed
      cases ends with
      | calm calm => exact absurd (calm.status.trans clear) set
      | halted _ => cases fault
      | aborted _ status => exact ⟨(Except.error.inj fault).symm, status⟩

theorem status_runWithin {fuel : Nat} {stop : Stop} (clear : m.halted = false → m.status = 0)
    (stopped : (runWithin fuel m).1.stop = some stop) (set : (runWithin fuel m).1.status ≠ 0) :
    stop.fault = .aborted ∧ (runWithin fuel m).1.status = Routine.abortStatus := by
  induction fuel generalizing m with
  | zero =>
    unfold runWithin at stopped set
    split at stopped
    · cases stopped
    · rename_i running
      simp [running] at set
  | succ fuel ih =>
    unfold runWithin at stopped set ⊢
    split at stopped
    · cases stopped
    · rename_i running
      rw [if_neg running] at set ⊢
      rw [Bool.not_eq_true] at running
      obtain ⟨goesOn, ends⟩ := status_step running (clear running)
      cases stepped : m.step with
      | mk result next =>
        rw [stepped] at stopped set goesOn ends
        cases result with
        | ok _ => exact ih (goesOn next rfl) stopped set
        | error other =>
          cases stopped
          exact ends stop next rfl set

end Run

/-- A start pushes the sentinel, if the entry is known. -/
theorem start_keeps (m : Machine) (entry : Bytes) :
    Keeps m (m.start entry).2 ∧ (m.start entry).2.halted = m.halted ∧
      (m.start entry).2.status = m.status := by
  have quiet : Quiet True (Exec.push returnSentinel) := .push _
  have kept := quiet.keeps m
  obtain ⟨halted, status, _, _⟩ := quiet.calm m
  have opened : (Exec.push returnSentinel).run m = perform (Exec.push returnSentinel) m := rfl
  unfold start
  cases m.label? entry with
  | none => exact ⟨.refl m, rfl, rfl⟩
  | some index =>
    dsimp only
    rw [opened]
    generalize perform (Exec.push returnSentinel) m = result at kept halted status
    rcases result with ⟨_ | _, next⟩
    · exact ⟨kept, halted, status⟩
    · exact ⟨⟨kept.text, kept.labels, kept.steps, kept.outside, kept.room⟩, halted, status⟩

/-- A program that returns to a forged address, and one that aborts itself. -/
private def forged : Bytes :=
  "main:\n\tpushl $7\n\tmovl 8(%esp),$3\n\tret\nabrupt:\n\tcall abort\n"

end Machine

end Onepass
