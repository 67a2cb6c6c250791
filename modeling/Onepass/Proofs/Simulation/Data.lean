import Onepass.Proofs.Simulation.Outcome

/-! The constants of a program. They are read from the data, which no step changes: the length of a
pooled string from its header, and single bytes. -/
namespace Onepass.Simulation

open Codegen.Builder (stringLabel)
open Interpreter (State)
open Machine

section

variable {P : Setting} {s : State} {blocks : Ledger} {memory : Memory} {mark a : Word}
  {bytes contents : Bytes} {index i : Nat}

/-- A piece of a pooled string: its header, its contents or its end. -/
theorem mem_constants_string (known : P.strings[index]? = some contents)
    (placed : P.layout.symbol? (stringLabel index) = some a) {piece : Constant}
    (one : piece ∈ [⟨a, 4⟩, ⟨a + 4, contents.length⟩,
      (⟨a + 4 + contents.length.toUInt32, 1⟩ : Constant)]) : piece ∈ P.constants := by
  refine List.mem_append_right _ (List.mem_flatMap.mpr ⟨(contents, index), ?_, ?_⟩)
  · exact List.mk_mem_zipIdx_iff_getElem?.mpr known
  · simpa only [placed, Option.map_some, Option.getD_some] using one

theorem mem_constants_format {name : Bytes} (known : (name, contents) ∈ formats)
    (placed : P.layout.symbol? name = some a) :
    (⟨a, contents.length + 1⟩ : Constant) ∈ P.constants :=
  List.mem_append_left _ (List.mem_filterMap.mpr ⟨(name, contents), known, by simp [placed]⟩)

theorem Setting.Holds.toNat_add (holds : P.Holds a bytes) (high : P.dataEnd ≤ heapLimit)
    (bound : i ≤ bytes.length) : (a + i.toUInt32).toNat = a.toNat + i := by
  have below := holds.below
  simp only [heapLimit, memorySize, stackSize] at high
  have small : i.toUInt32.toNat = i := Word.toNat_natCast (by omega)
  rw [Word.toNat_add_of_lt (by omega), small]

/-- The data is read from memory. -/
theorem Stored.read_data (stored : Stored P s blocks memory mark) (holds : P.Holds a bytes)
    (high : P.dataEnd ≤ heapLimit) {b : UInt8} (found : bytes[i]? = some b) :
    memory.read (a + i.toUInt32) = b := by
  have bound := (List.getElem?_eq_some_iff.mp found).1
  have place := holds.toNat_add high (Nat.le_of_lt bound)
  have below := holds.below
  rw [stored.data _ (Nat.zero_le _) (by omega)]
  exact holds.byte found

/-- The header of a string holds its length. -/
theorem Stored.read_header (stored : Stored P s blocks memory mark) {v : Word} {rest : Bytes}
    (holds : P.Holds a (Word.bytes v ++ rest)) (high : P.dataEnd ≤ heapLimit) :
    memory.readWord a = v := by
  apply Memory.readWord_of_bytes
  intro i b found
  apply stored.read_data holds high
  rw [List.getElem?_append_left (List.getElem?_eq_some_iff.mp found).1]
  exact found

end

end Onepass.Simulation
