import Onepass.Proofs.Machine.Pointers
import Onepass.Proofs.Simulation.Program

/-! Compiled programs are memory safe. As long as the stack pointer stays in the reserved stack, every
access is to the stack, to a constant, or to the header or an element of an array, or else it fails
because it goes through a null pointer. So the data keeps its bytes, and the header of an array keeps
the length it was given. -/
namespace Onepass

open Assembly (dataBase)
open Machine

namespace Machine

section

variable {constants : List Constant} {blocks : Ledger} {m after : Machine} {low : Nat} {a : Access}

/-- A step that stays inside the stack uses only the stack. -/
theorem floor_of_step (running : m.halted = false) (inside : m.InStack)
    (stepped : m.step = (.ok (), after)) (stays : after.InStack) :
    heapLimit ≤ m.stackFloor.toNat := by
  cases fetched : m.fetch? with
  | none => simp [step, running, fetched] at stepped
  | some i =>
    by_cases pushes : i.mnemonic = .pushl
    · have done := perform_of_step running fetched stepped
      have moved : after.registers.esp = m.registers.esp - 4 := by
        rw [(registers_pushl pushes done).1]
        rfl
      have low := stays.1
      rw [moved] at low
      simpa [stackFloor, fetched, pushes] using low
    · simpa [stackFloor, fetched, pushes] using inside.1

/-- Whether an access lies above an address and outside all headers that are set. -/
def Ledger.Spared (low : Nat) (blocks : Ledger) (a : Access) : Prop :=
  low ≤ a.address.toNat ∧ ∀ b ∈ blocks, b.length ≠ none →
    a.address.toNat + a.size ≤ b.address.toNat ∨ b.address.toNat + 4 ≤ a.address.toNat

/-- Elements lie behind the header of their block. -/
theorem element_within {block : Block} {count index size place : Nat}
    (divided : block.size = 4 + count * size) (inside : index < count)
    (there : place = block.address.toNat + 4 + index * size) :
    block.address.toNat + 4 ≤ place ∧ place + size ≤ block.address.toNat + block.size := by
  have product : (index + 1) * size ≤ count * size := Nat.mul_le_mul_right _ inside
  rw [Nat.add_mul] at product
  omega

/-- Blocks of a tidy ledger are the same or do not overlap. -/
theorem Ledger.Tidy.eq_or_apart {high : Nat} {b c : Block} (tidy : blocks.Tidy low high)
    (first : b ∈ blocks) (second : c ∈ blocks) :
    b = c ∨ b.address.toNat + b.size ≤ c.address.toNat ∨
      c.address.toNat + c.size ≤ b.address.toNat := by
  obtain ⟨r, first⟩ := List.mem_iff_getElem?.mp first
  obtain ⟨q, second⟩ := List.mem_iff_getElem?.mp second
  by_cases same : r = q
  · subst same
    exact .inl (Option.some.inj (first.symm.trans second))
  · exact .inr (tidy.disjoint first second same)

/-- A step that stays inside the stack writes neither below the blocks nor to a header that is
set. -/
theorem Safe.spared (safe : Safe constants blocks m) (tidy : blocks.Tidy low heapLimit)
    (order : low ≤ heapLimit) (floor : heapLimit ≤ m.stackFloor.toNat)
    (stepped : m.step = (.ok (), after)) (member : a ∈ m.accesses) (writes : a.isWrite = true) :
    blocks.Spared low a := by
  cases safe a member with
  | stack above _ =>
    refine ⟨by omega, fun b known _ => .inr ?_⟩
    have within := tidy.within b known
    have header := tidy.header b known
    omega
  | constant _ _ reads =>
    rw [writes] at reads
    cases reads
  | header block known place whole once =>
    have within := tidy.within block known
    refine ⟨by rw [place]; exact within.1, fun b there set => ?_⟩
    have header := tidy.header b there
    have other := tidy.header block known
    rw [place, whole]
    rcases tidy.eq_or_apart known there with rfl | apart
    · exact absurd (once writes) set
    · omega
  | element block known count set divided index inside place =>
    obtain ⟨behind, before⟩ := element_within divided inside place
    have within := tidy.within block known
    refine ⟨by omega, fun b there _ => ?_⟩
    have header := tidy.header b there
    rcases tidy.eq_or_apart known there with rfl | apart
    · exact .inr behind
    · omega
  | null _ _ fails =>
    rw [stepped] at fails
    cases fails

/-- What a run has left alone: the bytes below the blocks, and the lengths of arrays. -/
structure Ledger.Kept (low : Nat) (first : Memory) (blocks : Ledger) (m : Machine) : Prop where
  data : Memory.Same 0 low first m.memory
  header : ∀ b ∈ blocks, ∀ count, b.length = some count → m.memory.readWord b.address = count

/-- A step leaves areas alone that its writes do not touch. -/
theorem same_step {high : Nat} (stepped : m.step = (.ok (), after))
    (apart : ∀ a ∈ m.accesses, a.isWrite = true →
      a.address.toNat + a.size ≤ low ∨ high ≤ a.address.toNat) :
    Memory.Same low high m.memory after.memory := by
  intro byte above below
  have kept : m.step.2.memory.read byte = m.memory.read byte := by
    refine read_step m fun a member writes touches => ?_
    have outside := apart a member writes
    unfold Access.Touches at touches
    omega
  rwa [stepped] at kept

theorem Ledger.Kept.step {first : Memory} (kept : blocks.Kept low first m)
    (spared : ∀ a ∈ m.accesses, a.isWrite = true → blocks.Spared low a)
    (tidy : blocks.Tidy low heapLimit) (stepped : m.step = (.ok (), after)) :
    (blocks.track m).Kept low first after where
  data := kept.data.trans (same_step stepped fun a member writes =>
    .inr (spared a member writes).1)
  header b member count set := by
    rcases List.mem_append.mp member with old | new
    · obtain ⟨c, known, rfl⟩ := List.mem_map.mp old
      unfold Block.after at set ⊢
      split
      · rename_i first
        rw [if_pos first] at set
        rw [← Option.some.inj set, stepped]
      · rename_i later
        rw [if_neg later] at set
        have within := tidy.within c known
        have header := tidy.header c known
        have top : heapLimit ≤ 0x100000000 := by decide
        have same : Memory.Same c.address.toNat (c.address.toNat + 4) m.memory after.memory :=
          same_step stepped fun a member writes =>
            (spared a member writes).2 c known (by simp [set])
        rw [same.readWord (le_refl _) (le_refl _) (by omega)]
        exact kept.header c known count set
    · unfold allocation? at new
      split at new
      · obtain rfl := List.mem_singleton.mp new
        cases set
      · cases new

end

end Machine

namespace Simulation

variable {P : Setting} {outcome : Nat → Except Interpreter.Stop Unit × Interpreter.State}
  {m n : Machine} {blocks : Ledger}

/-- Every state that a program reaches inside its stack is safe. -/
theorem safe_of_reaches (leads : ∀ fuel, Leads P.Watch (Finished P fuel (outcome fuel)) [] m)
    (reaches : Reaches [] m blocks n) :
    Safe P.constants blocks n ∧ blocks.Tidy P.dataEnd heapLimit := by
  rcases watch_of_reaches leads reaches with ⟨_, watched⟩ | ⟨returned, tidy⟩
  · exact ⟨watched.safe, watched.tidy⟩
  · refine ⟨fun a member => ?_, tidy⟩
    simp [accesses, returned.halted] at member

/-- The steps of a program that stay inside the stack spare the data and the lengths of arrays. -/
theorem spared_of_reaches (leads : ∀ fuel, Leads P.Watch (Finished P fuel (outcome fuel)) [] m)
    (order : P.dataEnd ≤ heapLimit) (reaches : Reaches [] m blocks n) {after : Machine}
    (stepped : n.step = (.ok (), after)) (stays : after.InStack) :
    ∀ a ∈ n.accesses, a.isWrite = true → blocks.Spared P.dataEnd a := by
  intro a member writes
  obtain ⟨safe, tidy⟩ := safe_of_reaches leads reaches
  cases running : n.halted with
  | true => simp [accesses, running] at member
  | false =>
    have floor := floor_of_step running reaches.inside stepped stays
    exact safe.spared tidy order floor stepped member writes

theorem kept_of_reaches (leads : ∀ fuel, Leads P.Watch (Finished P fuel (outcome fuel)) [] m)
    (order : P.dataEnd ≤ heapLimit) (data : Memory.Same 0 P.dataEnd P.data m.memory)
    (reaches : Reaches [] m blocks n) : blocks.Kept P.dataEnd P.data n := by
  induction reaches with
  | start _ => exact ⟨data, fun _ member => absurd member List.not_mem_nil⟩
  | step earlier stepped stays ih =>
    exact ih.step (spared_of_reaches leads order earlier stepped stays)
      (safe_of_reaches leads earlier).2 stepped

end Simulation

/-- What memory safety says about a state: all accesses of the next step are permitted, and the data
and the lengths of arrays are what they were. The next step writes neither to the data nor to a
length that is set, unless it leaves the stack. -/
structure Machine.Guarded (constants : List Constant) (data : Memory) (dataEnd : Nat)
    (blocks : Ledger) (m : Machine) : Prop where
  safe : Safe constants blocks m
  tidy : blocks.Tidy dataEnd heapLimit
  kept : blocks.Kept dataEnd data m
  spared : ∀ after, m.step = (.ok (), after) → after.InStack →
    ∀ a ∈ m.accesses, a.isWrite = true → blocks.Spared dataEnd a

namespace Compiler

/-- A program that changes an element of an array. -/
private def overwriting : Source := ⟨[], "a = [5, 7] a[1] = 9 print a[1]"⟩

end Compiler

end Onepass
