import Onepass.Proofs.Machine.Words

/-! Reading memory after writing it. Addresses are compared as numbers, so that ranges of bytes can
be told apart by arithmetic; two memories agree on a range when they hold the same bytes there. -/
namespace Onepass.Machine.Memory

/-- Whether two memories hold the same bytes from one address up to another. -/
def Same (low high : Nat) (m n : Memory) : Prop :=
  ∀ a : Word, low ≤ a.toNat → a.toNat < high → n.read a = m.read a

variable {low high : Nat} {m n o : Memory}

theorem Same.refl (low high : Nat) (m : Memory) : Same low high m m := fun _ _ _ => rfl

theorem Same.symm (same : Same low high m n) : Same low high n m :=
  fun a above below => (same a above below).symm

theorem Same.trans (first : Same low high m n) (second : Same low high n o) :
    Same low high m o :=
  fun a above below => (second a above below).trans (first a above below)

theorem Same.mono {inner outer : Nat} (same : Same low high m n) (above : low ≤ inner)
    (below : outer ≤ high) : Same inner outer m n :=
  fun a first second => same a (by omega) (by omega)

/-- A byte that is written changes no other. -/
theorem same_write {a : Word} (value : UInt8) (outside : a.toNat < low ∨ high ≤ a.toNat) :
    Same low high m (m.write a value) := by
  intro b above below
  rw [read_write, if_neg]
  rintro rfl
  omega

@[simp] theorem read_write_same (m : Memory) (a : Word) (value : UInt8) :
    (m.write a value).read a = value := by
  simp [read_write]

/-- Bytes that are written change no others. -/
theorem same_writeBytes {a : Word} {bytes : List UInt8}
    (room : a.toNat + bytes.length ≤ 0x100000000)
    (outside : a.toNat + bytes.length ≤ low ∨ high ≤ a.toNat) :
    Same low high m (m.writeBytes a bytes) := by
  induction bytes generalizing m a with
  | nil => exact .refl _ _ _
  | cons b rest ih =>
    simp only [List.length_cons] at room outside
    rcases rest with _ | ⟨c, others⟩
    · exact same_write b (by simp only [List.length_nil] at outside; omega)
    · simp only [List.length_cons] at room outside
      have next : (a + 1).toNat = a.toNat + 1 :=
        Word.toNat_add_of_lt (by have : (1 : Word).toNat = 1 := rfl; omega)
      refine (same_write b (by omega)).trans (ih ?_ ?_) <;>
        simp only [List.length_cons, next] <;> omega

/-- Bytes that are written can be read. -/
theorem read_writeBytes {a : Word} {bytes : List UInt8} {i : Nat} {b : UInt8}
    (room : a.toNat + bytes.length ≤ 0x100000000) (found : bytes[i]? = some b) :
    (m.writeBytes a bytes).read (a + i.toUInt32) = b := by
  induction bytes generalizing m a i with
  | nil => simp at found
  | cons first rest ih =>
    simp only [List.length_cons] at room
    cases i with
    | zero =>
      obtain rfl : first = b := by simpa using found
      have zero : a + Nat.toUInt32 0 = a := by simp
      rw [zero]
      rcases rest with _ | ⟨c, others⟩
      · exact read_write_same ..
      · simp only [List.length_cons] at room
        have next : (a + 1).toNat = a.toNat + 1 :=
          Word.toNat_add_of_lt (by have : (1 : Word).toNat = 1 := rfl; omega)
        have same : Same a.toNat (a.toNat + 1) (m.write a first)
            ((m.write a first).writeBytes (a + 1) (c :: others)) :=
          same_writeBytes (by simp only [List.length_cons, next]; omega) (by omega)
        exact (same a (by omega) (by omega)).trans (read_write_same ..)
    | succ j =>
      have found : rest[j]? = some b := by simpa using found
      have position := (List.getElem?_eq_some_iff.mp found).1
      have next : (a + 1).toNat = a.toNat + 1 :=
        Word.toNat_add_of_lt (by have : (1 : Word).toNat = 1 := rfl; omega)
      have shifted : a + (j + 1).toUInt32 = a + 1 + j.toUInt32 := by
        simp [UInt32.add_assoc, UInt32.add_comm]
      rw [shifted]
      exact ih (by omega) found

/-- A word is read where its bytes stand. -/
theorem readWord_of_bytes {a v : Word}
    (read : ∀ {i : Nat} {b : UInt8}, (Word.bytes v)[i]? = some b → m.read (a + i.toUInt32) = b) :
    m.readWord a = v := by
  have first : a = a + Nat.toUInt32 0 := (UInt32.add_zero a).symm
  have whole : m.readWord a = .ofBytes (m.read (a + Nat.toUInt32 0)) (m.read (a + Nat.toUInt32 1))
      (m.read (a + Nat.toUInt32 2)) (m.read (a + Nat.toUInt32 3)) := by
    rw [← first]
    rfl
  rw [whole, read (i := 0) rfl, read (i := 1) rfl, read (i := 2) rfl, read (i := 3) rfl]
  exact Word.ofBytes_bytes v

theorem Same.readWord {a : Word} (same : Same low high m n) (above : low ≤ a.toNat)
    (below : a.toNat + 4 ≤ high) (room : a.toNat + 4 ≤ 0x100000000) :
    n.readWord a = m.readWord a := by
  have position (k : Word) (small : k.toNat < 4) : (a + k).toNat = a.toNat + k.toNat :=
    Word.toNat_add_of_lt (by omega)
  have one := position 1 (by decide)
  have two := position 2 (by decide)
  have three := position 3 (by decide)
  have known : (1 : Word).toNat = 1 ∧ (2 : Word).toNat = 2 ∧ (3 : Word).toNat = 3 := by decide
  unfold Memory.readWord
  rw [same a above (by omega), same (a + 1) (by omega) (by omega),
    same (a + 2) (by omega) (by omega), same (a + 3) (by omega) (by omega)]

theorem same_writeWord {a : Word} (value : Word) (room : a.toNat + 4 ≤ 0x100000000)
    (outside : a.toNat + 4 ≤ low ∨ high ≤ a.toNat) : Same low high m (m.writeWord a value) :=
  same_writeBytes room outside

/-- A word that is written can be read. -/
theorem readWord_writeWord {a : Word} (value : Word) (room : a.toNat + 4 ≤ 0x100000000) :
    (m.writeWord a value).readWord a = value := by
  have byte (i : Nat) (b : UInt8) (found : value.bytes[i]? = some b) :
      (m.writeWord a value).read (a + i.toUInt32) = b := read_writeBytes room found
  have zero : a = a + Nat.toUInt32 0 := by simp
  have whole : (m.writeWord a value).readWord a =
      .ofBytes ((m.writeWord a value).read (a + Nat.toUInt32 0))
        ((m.writeWord a value).read (a + Nat.toUInt32 1))
        ((m.writeWord a value).read (a + Nat.toUInt32 2))
        ((m.writeWord a value).read (a + Nat.toUInt32 3)) := by
    rw [← zero]
    rfl
  rw [whole, byte 0 _ rfl, byte 1 _ rfl, byte 2 _ rfl, byte 3 _ rfl]
  exact Word.ofBytes_bytes value

/-- A word of zeros is zero. -/
theorem readWord_zero {a : Word} (zeros : ∀ b : Word, low ≤ b.toNat → b.toNat < high →
    m.read b = 0) (above : low ≤ a.toNat) (below : a.toNat + 4 ≤ high)
    (room : a.toNat + 4 ≤ 0x100000000) : m.readWord a = 0 := by
  have empty (b : Word) : (Memory.mk ∅).read b = 0 := by simp [read]
  have same : Same low high ⟨∅⟩ m := fun b first second => by
    rw [zeros b first second, empty]
  rw [same.readWord above below room, Memory.readWord, empty, empty, empty, empty]
  rfl

end Onepass.Machine.Memory
