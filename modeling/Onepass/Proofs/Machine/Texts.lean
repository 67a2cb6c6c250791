import Onepass.Proofs.Machine.Steps

/-! Texts in memory. A text stands at an address if its bytes do, all of them accessible, and a zero
byte follows them. These are the texts that the machine reads. -/
namespace Onepass.Machine

variable {m : Machine} {a : Word} {b : UInt8} {text : Bytes}

/-- Whether a text stands at an address in accessible memory, followed by a zero byte. -/
structure HasText (m : Machine) (a : Word) (text : Bytes) : Prop where
  nonzero : ∀ b ∈ text, b ≠ 0
  fine : ∀ i ≤ text.length, accessible (a + i.toUInt32) 1 = true
  byte : ∀ {i : Nat} {b : UInt8}, (text ++ [0])[i]? = some b → m.memory.read (a + i.toUInt32) = b

theorem add_toUInt32_zero (a : Word) : a + Nat.toUInt32 0 = a := UInt32.add_zero a

theorem add_toUInt32_succ (a : Word) (i : Nat) :
    a + 1 + i.toUInt32 = a + (i + 1).toUInt32 := by
  simp [UInt32.add_assoc, UInt32.add_comm]

theorem HasText.tail (has : HasText m a (b :: text)) : HasText m (a + 1) text where
  nonzero c member := has.nonzero c (List.mem_cons_of_mem _ member)
  fine i bound := by
    rw [add_toUInt32_succ]
    exact has.fine (i + 1) (Nat.succ_le_succ bound)
  byte {i c} found := by
    rw [add_toUInt32_succ]
    exact has.byte found

theorem HasText.starts (has : HasText m a text) : accessible a 1 = true := by
  have fine := has.fine 0 (Nat.zero_le _)
  rwa [add_toUInt32_zero] at fine

theorem HasText.first (has : HasText m a text) (head : (text ++ [0]).head? = some b) :
    m.readByte a = .ok b ∧ m.memory.read a = b := by
  have byte : m.memory.read (a + Nat.toUInt32 0) = b :=
    has.byte (by rw [← List.head?_eq_getElem?]; exact head)
  rw [add_toUInt32_zero] at byte
  exact ⟨by rw [readByte_eq has.starts, byte], byte⟩

/-- A text is read up to its end, by accesses to its bytes. -/
theorem HasText.readTextWithin (has : HasText m a text) {fuel : Nat}
    (enough : text.length < fuel) :
    m.readTextWithin fuel a = .ok text ∧
      ∀ access ∈ m.textAccesses fuel a, ∃ i ≤ text.length, access = ⟨a + i.toUInt32, 1, false⟩ := by
  induction text generalizing a fuel with
  | nil =>
    obtain ⟨fuel, rfl⟩ : ∃ k, fuel = k + 1 := ⟨fuel - 1, by simp at enough; omega⟩
    obtain ⟨read, byte⟩ := has.first rfl
    refine ⟨by simp only [Machine.readTextWithin, read]; rfl, fun access member => ?_⟩
    simp only [textAccesses, byte, if_true, List.mem_singleton] at member
    exact ⟨0, le_refl _, by rw [member]; simp⟩
  | cons b text ih =>
    obtain ⟨fuel, rfl⟩ : ∃ k, fuel = k + 1 := ⟨fuel - 1, by simp at enough; omega⟩
    obtain ⟨read, byte⟩ := has.first rfl
    have nonzero := has.nonzero b (List.mem_cons_self ..)
    obtain ⟨others, inside⟩ := ih has.tail (by simpa using enough)
    refine ⟨by simp only [Machine.readTextWithin, read, ok_bind, nonzero, if_false, others]; rfl,
      fun access member => ?_⟩
    simp only [textAccesses, byte, nonzero, if_false, List.mem_cons] at member
    rcases member with first | later
    · exact ⟨0, Nat.zero_le _, by rw [first]; simp⟩
    · obtain ⟨i, bound, same⟩ := inside access later
      exact ⟨i + 1, Nat.succ_le_succ bound, by rw [same, add_toUInt32_succ]⟩

theorem HasText.nil (fine : accessible a 1 = true) (zero : m.memory.read a = 0) :
    HasText m a [] where
  nonzero _ member := absurd member List.not_mem_nil
  fine i bound := by
    obtain rfl := Nat.le_zero.mp bound
    rwa [add_toUInt32_zero]
  byte {i c} found := by
    cases i with
    | zero =>
      obtain rfl := Option.some.inj found
      rwa [add_toUInt32_zero]
    | succ i => cases found

theorem HasText.cons (fine : accessible a 1 = true) (byte : m.memory.read a = b) (nonzero : b ≠ 0)
    (has : HasText m (a + 1) text) : HasText m a (b :: text) where
  nonzero c member := by
    rcases List.mem_cons.mp member with rfl | later
    · exact nonzero
    · exact has.nonzero c later
  fine i bound := by
    cases i with
    | zero => rwa [add_toUInt32_zero]
    | succ i =>
      rw [← add_toUInt32_succ]
      exact has.fine i (Nat.le_of_succ_le_succ bound)
  byte {i c} found := by
    cases i with
    | zero =>
      obtain rfl : b = c := by simpa using found
      rwa [add_toUInt32_zero]
    | succ i =>
      rw [← add_toUInt32_succ]
      exact has.byte found

theorem readByte_eq_ok_iff :
    m.readByte a = .ok b ↔ accessible a 1 = true ∧ m.memory.read a = b := by
  cases fine : accessible a 1 with
  | false => simp [readByte_fault fine]
  | true => simp [readByte_eq fine]

/-- What is read is a text. -/
theorem hasText_of_readTextWithin {fuel : Nat} (read : m.readTextWithin fuel a = .ok text) :
    HasText m a text := by
  induction fuel generalizing a text with
  | zero => cases read
  | succ fuel ih =>
    obtain ⟨b, first, read⟩ := bind_eq_ok.mp read
    obtain ⟨fine, byte⟩ := readByte_eq_ok_iff.mp first
    split at read
    · rename_i zero
      cases read
      exact .nil fine (byte.trans zero)
    · rename_i nonzero
      obtain ⟨rest, later, read⟩ := bind_eq_ok.mp read
      cases read
      exact .cons fine byte nonzero (ih later)

/-- A text ends before the memory does. -/
theorem HasText.below (has : HasText m a text) : a.toNat + text.length < memorySize := by
  induction text generalizing a with
  | nil => exact (accessible_iff.mp has.starts).2
  | cons b text ih =>
    have inside := (accessible_iff.mp has.starts).2
    have below := ih has.tail
    have small : memorySize < 0x100000000 := by decide
    have next : (a + 1).toNat = a.toNat + 1 := Word.toNat_add_of_lt (b := 1) (by simp; omega)
    simp only [List.length_cons]
    omega

/-- The texts in memory are those that are read. -/
theorem readText_eq_ok_iff : m.readText a = .ok text ↔ HasText m a text := by
  refine ⟨hasText_of_readTextWithin, fun has => ?_⟩
  have below := has.below
  exact (has.readTextWithin (by omega)).1

end Onepass.Machine
