import Onepass.Proofs.Simulation.Instructions

/-! The frame and the operand stack. Code that changes nothing but registers and the stack below the
frame goes on in a machine that stands for the same state. -/
namespace Onepass.Simulation

open Assembly (Code)
open Interpreter (Value State)
open Machine

section

variable {P : Setting} {s : State} {blocks : Ledger} {words : List Word} {memory changed : Memory}
  {mark esp v w : Word}

theorem frameBottom_le (P : Setting) : P.frameBottom ≤ memorySize - 8 := Nat.sub_le ..

theorem Stacked.same (stacked : Stacked P words memory esp)
    (same : Memory.Same esp.toNat P.frameBottom memory changed) : Stacked P words changed esp where
  place := stacked.place
  word {i w} found := by
    have bound := (List.getElem?_eq_some_iff.mp found).1
    have place := stacked.place
    have top := frameBottom_le P
    simp only [memorySize] at top
    have address : (esp.toNat + 4 * i).toUInt32.toNat = esp.toNat + 4 * i :=
      Word.toNat_natCast (by omega)
    rw [same.readWord (by omega) (by omega) (by omega)]
    exact stacked.word found

/-- The word on top of the stack. -/
theorem Stacked.top (stacked : Stacked P (w :: words) memory esp) :
    memory.readWord esp = w ∧ esp.toNat + 4 ≤ P.frameBottom ∧
      (esp + 4).toNat = esp.toNat + 4 := by
  have place := stacked.place
  have top := frameBottom_le P
  have four : (4 : Word).toNat = 4 := rfl
  simp only [memorySize] at top
  simp only [List.length_cons] at place
  refine ⟨?_, by omega, Word.toNat_add_of_lt (by omega)⟩
  have word : memory.readWord (esp.toNat + 4 * 0).toUInt32 = w := stacked.word rfl
  simpa using word

theorem Stacked.pop (stacked : Stacked P (w :: words) memory esp) :
    Stacked P words memory (esp + 4) := by
  obtain ⟨_, _, next⟩ := stacked.top
  have place := stacked.place
  simp only [List.length_cons] at place
  refine ⟨by omega, fun {i v} found => ?_⟩
  have word : memory.readWord (esp.toNat + 4 * (i + 1)).toUInt32 = v := stacked.word found
  have address : (esp + 4).toNat + 4 * i = esp.toNat + 4 * (i + 1) := by omega
  rw [address]
  exact word

theorem Stacked.push (stacked : Stacked P words memory esp) (room : 4 ≤ esp.toNat) (v : Word) :
    Stacked P (v :: words) (memory.writeWord (esp - 4) v) (esp - 4) := by
  have four : (4 : Word).toNat = 4 := rfl
  have next : (esp - 4).toNat = esp.toNat - 4 := Word.toNat_sub_of_le (by omega)
  have place := stacked.place
  have top := frameBottom_le P
  simp only [memorySize] at top
  have same : Memory.Same esp.toNat P.frameBottom memory (memory.writeWord (esp - 4) v) :=
    Memory.same_writeWord v (by omega) (by omega)
  refine ⟨by simp only [List.length_cons]; omega, fun {i w} found => ?_⟩
  cases i with
  | zero =>
    obtain rfl : v = w := by simpa using found
    have written : (memory.writeWord (esp - 4) v).readWord (esp - 4) = v :=
      Memory.readWord_writeWord v (by omega)
    simpa using written
  | succ i =>
    have address : (esp - 4).toNat + 4 * (i + 1) = esp.toNat + 4 * i := by omega
    rw [address]
    exact (stacked.same same).word (by simpa using found)

/-- Writing to the stack below the frame changes nothing that is stored. -/
theorem Stored.write_stack {a : Word} (stored : Stored P s blocks memory mark) (fits : P.Fits)
    (low : heapLimit ≤ a.toNat) (high : a.toNat + 4 ≤ P.frameBottom) (v : Word) :
    Stored P s blocks (memory.writeWord a v) mark := by
  have top := frameBottom_le P
  simp only [memorySize] at top
  exact stored.same fits (Memory.same_writeWord v (by omega) (.inr low))
    (Memory.same_writeWord v (by omega) (.inl high))

end

section

variable {P : Setting} {s after : State} {blocks : Ledger} {words old : List Word}
  {goal : Ledger → Machine → Prop} {m n : Machine} {code rest : Code} {r : Registers}
  {memory : Memory} {flags : Flags} {a : Assembly.Operand} {x : Operand} {v w : Word}

/-- The stack lies below the top of memory. -/
theorem Matches.top (matched : Matches P s blocks words m) :
    heapLimit ≤ m.registers.esp.toNat ∧ m.registers.esp.toNat + 4 * words.length = P.frameBottom ∧
      P.frameBottom + 4 * P.locals.length + 8 = memorySize := by
  have fits := matched.fits
  refine ⟨matched.ready.inside.1, matched.stack.place, ?_⟩
  simp only [Setting.Fits, Setting.frameBottom, memorySize] at *
  omega

/-- Straight code whose effect on memory is known. -/
theorem At.matches (here : At P blocks m code r memory flags n)
    (matched : Matches P s blocks old m) (base : r.ebp = m.registers.ebp)
    (stack : Stacked P words memory r.esp) (stored : Stored P after blocks memory m.heap)
    (output : after.output = s.output) : Matches P after blocks words n where
  ready := here.ready
  base := by rw [here.registers, base, matched.base]
  stack := by rw [here.registers, here.memory]; exact stack
  stored := by rw [here.memory, here.heap]; exact stored
  output := by rw [here.sink, output]; exact matched.output

/-- Straight code that changes only other registers. -/
theorem At.keeps (here : At P blocks m code r m.memory flags n)
    (matched : Matches P s blocks words m) (base : r.ebp = m.registers.ebp)
    (top : r.esp = m.registers.esp) : Matches P s blocks words n :=
  here.matches matched base (top ▸ matched.stack) matched.stored rfl

/-- A push of a word that is not in memory. -/
theorem leads_push (matched : Matches P s blocks words m)
    (before : Before P (.instruction "pushl" [a] :: rest) m)
    (source : P.layout.operand a = .ok x)
    (reads : Readable P blocks m.registers m.memory x v) (quiet : x.address? m = none)
    (onward : ∀ n, Matches P s blocks (v :: words) n → Before P rest n →
      Leads P.Watch goal blocks n) : Leads P.Watch goal blocks m := by
  refine (At.start matched.ready before).pushl matched.stored.sealed source reads quiet
    fun n there => onward n ?_ there.before
  obtain ⟨low, place, _⟩ := matched.top
  have below : heapLimit ≤ (m.registers.esp - 4).toNat := there.inside.1
  have four : (4 : Word).toNat = 4 := rfl
  have room : 4 ≤ m.registers.esp.toNat := le_trans (by decide) low
  have next : (m.registers.esp - 4).toNat = m.registers.esp.toNat - 4 :=
    Word.toNat_sub_of_le (by omega)
  exact there.matches matched rfl (matched.stack.push room v)
    (matched.stored.write_stack matched.fits below (by omega) v) rfl

/-- A pop into a register other than the stack pointer and the base. -/
theorem leads_pop {t : Register} (matched : Matches P s blocks (w :: words) m)
    (before : Before P (.instruction "popl" [a] :: rest) m)
    (target : P.layout.operand a = .ok (.full t)) (other : t ≠ .esp ∧ t ≠ .ebp)
    (onward : ∀ n, Matches P s blocks words n → Before P rest n →
      n.registers = (m.registers.set .esp (m.registers.esp + 4)).set t w →
      Leads P.Watch goal blocks n) : Leads P.Watch goal blocks m := by
  obtain ⟨read, bound, _⟩ := matched.stack.top
  obtain ⟨low, place, whole⟩ := matched.top
  refine (At.start matched.ready before).popl target (by omega) fun n there => ?_
  rw [read] at there
  have base : ((m.registers.set .esp (m.registers.esp + 4)).set t w).get .ebp =
      m.registers.ebp := by
    rw [Registers.get_set, if_neg other.2]
    rfl
  have top : ((m.registers.set .esp (m.registers.esp + 4)).set t w).get .esp =
      m.registers.esp + 4 := by
    rw [Registers.get_set, if_neg other.1]
    rfl
  have stack : Stacked P words m.memory
      (((m.registers.set .esp (m.registers.esp + 4)).set t w).get .esp) := by
    rw [top]
    exact matched.stack.pop
  exact onward n (there.matches matched base stack matched.stored rfl) there.before
    there.registers

/-- Where the slot of a variable is found from the base. -/
theorem slot_place (fits : P.Fits) {i : Nat} (bound : i < P.locals.length) :
    frameBase + (Int32.ofInt (Codegen.wrap (Codegen.frameOffset i))).toUInt32 = slotAddress i := by
  have offset : (Int32.ofInt (Codegen.wrap (Codegen.frameOffset i))).toUInt32 =
      Word.ofInt (-(i + 1) * wordSize) :=
    (ofInt_wrap _).trans (ofInt_wrap _)
  have base : frameBase = Word.ofInt (memorySize - 8 : Nat) := (Word.ofInt_natCast _).symm
  have sum : ((memorySize - 8 : Nat) : Int) + -(i + 1) * wordSize =
      (memorySize - 8 - 4 * (i + 1) : Nat) := by
    simp only [Setting.Fits, wordSize, memorySize, heapLimit, stackSize] at *
    omega
  rw [offset, base, ← Word.ofInt_add, sum, Word.ofInt_natCast]
  rfl

theorem Matches.slot_place (matched : Matches P s blocks words m) {i : Nat}
    (bound : i < P.locals.length) :
    m.registers.get .ebp + (Int32.ofInt (Codegen.wrap (Codegen.frameOffset i))).toUInt32 =
      slotAddress i := by
  rw [← Simulation.slot_place matched.fits bound, ← matched.base]
  rfl

end

end Onepass.Simulation
