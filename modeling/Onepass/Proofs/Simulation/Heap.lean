import Onepass.Proofs.Simulation.State

/-! How the heap changes: an element is written, or an array is allocated. Either way the other
blocks, the data and the frame stay as they are. -/
namespace Onepass.Simulation

open Interpreter (Value Cell State arraySize)
open Machine

/-- Writes an element of a type. -/
def writeElement (element : Shape) (memory : Memory) (a w : Word) : Memory :=
  if element = .char then memory.write a w.toUInt8 else memory.writeWord a w

section

variable {P : Setting} {s : State} {heap : List Cell} {blocks : Ledger} {element : Shape}
  {v : Value} {w a : Word} {memory : Memory} {mark : Word}

theorem same_writeElement {low high : Nat} (room : a.toNat + element.size ≤ memorySize)
    (outside : a.toNat + element.size ≤ low ∨ high ≤ a.toNat) :
    Memory.Same low high memory (writeElement element memory a w) := by
  unfold writeElement
  split
  · rename_i char
    subst char
    simp only [Shape.size] at outside
    exact Memory.same_write _ (by omega)
  · rename_i other
    rw [size_of_ne_char other] at room outside
    exact Memory.same_writeWord w (le_trans room (by decide)) outside

/-- An element that is written can be read. -/
theorem elementWord_writeElement (room : a.toNat + element.size ≤ memorySize)
    (represents : Represents P heap blocks element v w) :
    elementWord element (writeElement element memory a w) a = w := by
  unfold elementWord writeElement
  split
  · rename_i char
    subst char
    cases represents
    simp
  · rename_i other
    rw [size_of_ne_char other] at room
    exact Memory.readWord_writeWord w (le_trans room (by decide))

/-- The heap after an element was changed. -/
def changed (heap : List Cell) (r place : Nat) (v : Value) : List Cell :=
  heap.modify r fun cell => { cell with values := cell.values.set place v }

theorem grows_changed (r place : Nat) (v : Value) :
    Grows heap (changed heap r place v) blocks blocks where
  cell {q c} found := by
    by_cases same : r = q
    · subst same
      exact ⟨{ c with values := c.values.set place v }, by simp [changed, found], rfl, by simp⟩
    · exact ⟨c, by simp [changed, same, found], rfl, rfl⟩
  block found := ⟨_, found, rfl⟩

/-- Different elements do not overlap. -/
theorem elements_apart (element : Shape) {i j : Nat} (differ : i ≠ j) :
    i * element.size + element.size ≤ j * element.size ∨
      j * element.size + element.size ≤ i * element.size := by
  rcases Nat.lt_or_gt_of_ne differ with before | after
  · have product := Nat.mul_le_mul_right element.size before
    rw [Nat.succ_mul] at product
    exact .inl product
  · have product := Nat.mul_le_mul_right element.size after
    rw [Nat.succ_mul] at product
    exact .inr product

/-- Writing an element changes the array it belongs to. -/
theorem Stored.put {r place : Nat} {cell : Cell} {block : Block}
    (stored : Stored P s blocks memory mark) (fits : P.Fits) (here : s.heap[r]? = some cell)
    (there : blocks[r]? = some block) (bound : place < cell.values.length)
    (represents : Represents P s.heap blocks cell.element v w) :
    Stored P { s with heap := changed s.heap r place v } blocks
      (writeElement cell.element memory (elementAddress cell.element block place) w) mark := by
  have limit : heapLimit ≤ memorySize := by decide
  have inside := stored.tidy.within block (List.mem_of_getElem? there)
  have top := stored.top
  have holding := stored.cell here there
  obtain ⟨start, within⟩ := toNat_elementAddress holding.size bound (by omega)
  have grows : Grows s.heap (changed s.heap r place v) blocks blocks := grows_changed r place v
  have same {low high : Nat} (outside :
      block.address.toNat + block.size ≤ low ∨ high ≤ block.address.toNat + 4) :
      Memory.Same low high memory
        (writeElement cell.element memory (elementAddress cell.element block place) w) :=
    same_writeElement (by omega) (by omega)
  have high : Memory.Same P.frameBottom memorySize memory
      (writeElement cell.element memory (elementAddress cell.element block place) w) :=
    same (by simp only [Setting.frameBottom, Setting.Fits] at *; omega)
  refine ⟨?_, ?_, stored.caller_same high, stored.back_same high, ?_, ?_, stored.tidy, stored.low,
    stored.aligned, stored.room, ?_⟩
  · exact stored.data.trans (same (by omega))
  · intro i name shape found
    exact (stored.slot_same fits high found).grow grows
  · simpa [changed] using stored.count
  · intro q other owner found placed
    by_cases differ : r = q
    · subst differ
      obtain rfl : block = owner := Option.some.inj (there.symm.trans placed)
      obtain rfl : { cell with values := cell.values.set place v } = other := by
        simpa [changed, here] using found
      refine ⟨by simpa using holding.length, by simpa using holding.size, ?_, ?_⟩
      · have header : Memory.Same block.address.toNat (block.address.toNat + 4) memory
            (writeElement cell.element memory (elementAddress cell.element block place) w) :=
          same (by omega)
        rw [header.readWord (le_refl _) (le_refl _) (by simp only [memorySize] at *; omega)]
        simpa using holding.header
      · intro i value chosen
        by_cases this : place = i
        · subst this
          obtain rfl : v = value := by simpa [bound] using chosen
          have read : elementWord cell.element (writeElement cell.element memory
              (elementAddress cell.element block place) w)
              (elementAddress cell.element block place) = w :=
            elementWord_writeElement (by omega) represents
          simp only
          rw [read]
          exact represents.grow grows
        · have chosen : cell.values[i]? = some value := by simpa [this] using chosen
          have valid := (List.getElem?_eq_some_iff.mp chosen).1
          obtain ⟨other, inner⟩ := toNat_elementAddress holding.size valid (by omega)
          have apart := elements_apart cell.element this
          have untouched : Memory.Same (elementAddress cell.element block i).toNat
              ((elementAddress cell.element block i).toNat + cell.element.size) memory
              (writeElement cell.element memory (elementAddress cell.element block place) w) :=
            same_writeElement (by omega) (by omega)
          simp only
          rw [elementWord_same untouched (le_refl _) (le_refl _) (by omega)]
          exact (holding.element chosen).grow grows
    · have found : s.heap[q]? = some other := by simpa [changed, differ] using found
      have around := stored.tidy.within owner (List.mem_of_getElem? placed)
      have apart := stored.tidy.disjoint there placed differ
      exact ((stored.cell found placed).same (by omega) (same (by omega))).grow grows
  · intro b above below
    have unused : Memory.Same mark.toNat heapLimit memory
        (writeElement cell.element memory (elementAddress cell.element block place) w) :=
      same (by omega)
    rw [unused b above below]
    exact stored.fresh b above below

/-- A new array. -/
def newCell (element : Shape) (count : Nat) : Cell :=
  ⟨element, List.replicate count (.initial element)⟩

/-- The block of a new array at an address. -/
def newBlock (element : Shape) (count : Nat) (a : Word) : Block :=
  ⟨a, arraySize element count, some count.toUInt32⟩

theorem grows_append (cell : Cell) (block : Block) :
    Grows heap (heap ++ [cell]) blocks (blocks ++ [block]) where
  cell {r c} found := by
    have bound := (List.getElem?_eq_some_iff.mp found).1
    exact ⟨c, by rw [List.getElem?_append_left bound, found], rfl, rfl⟩
  block {r b} found := by
    have bound := (List.getElem?_eq_some_iff.mp found).1
    exact ⟨b, by rw [List.getElem?_append_left bound, found], rfl⟩

/-- Where the heap ends after an allocation. -/
theorem Stored.toNat_roundUp {size : Nat} (stored : Stored P s blocks memory mark)
    (enough : size ≤ s.room) :
    (Routine.roundUp (mark + size.toUInt32)).toNat = mark.toNat + (size + 7) / 8 * 8 ∧
      (size + 7) / 8 * 8 ≤ s.room := by
  have room := stored.room
  have aligned := stored.aligned
  simp only [heapLimit, memorySize, stackSize] at room
  have bytes : size.toUInt32.toNat = size := Word.toNat_natCast (by omega)
  have sum : (mark + size.toUInt32).toNat = mark.toNat + size := by
    rw [Word.toNat_add_of_lt (by omega), bytes]
  rw [Routine.toNat_roundUp (by omega), sum]
  omega

theorem elementWord_zero {low high : Nat}
    (zeros : ∀ b : Word, low ≤ b.toNat → b.toNat < high → memory.read b = 0)
    (above : low ≤ a.toNat) (below : a.toNat + element.size ≤ high) (small : high ≤ memorySize) :
    elementWord element memory a = 0 := by
  unfold elementWord
  split
  · rename_i char
    subst char
    rw [zeros a above (by simp only [Shape.size] at below; omega)]
    rfl
  · rename_i other
    rw [size_of_ne_char other] at below
    exact Memory.readWord_zero zeros above below (le_trans (le_trans below small) (by decide))

/-- A block of zeros with a header holds a new array. -/
theorem holding_new {count : Nat} {top : Nat} (writable : element.isWritable = true)
    (small : mark.toNat + arraySize element count ≤ top) (high : top ≤ memorySize)
    (zeros : ∀ b : Word, mark.toNat ≤ b.toNat → b.toNat < top → memory.read b = 0) :
    Holding P heap blocks (memory.writeWord mark count.toUInt32) (newCell element count)
      (newBlock element count mark) where
  length := by simp [newCell, newBlock]
  size := by simp [newCell, newBlock]
  header := by
    have size : 4 ≤ arraySize element count := by simp [arraySize, wordSize]
    simp only [memorySize] at high
    have written : (memory.writeWord mark count.toUInt32).readWord mark = count.toUInt32 :=
      Memory.readWord_writeWord _ (by omega)
    simpa [newCell, newBlock] using written
  element {i v} found := by
    obtain ⟨bound, rfl⟩ : i < count ∧ Value.initial element = v := by
      simpa [newCell, List.getElem?_replicate, eq_comm] using found
    have inside : i < (newCell element count).values.length := by simpa [newCell] using bound
    have size : (newBlock element count mark).size =
        arraySize (newCell element count).element (newCell element count).values.length := by
      simp [newCell, newBlock]
    obtain ⟨place, within⟩ := toNat_elementAddress size inside (by simp only [newBlock]; omega)
    simp only [newCell, newBlock] at place within ⊢
    have rest : Memory.Same (mark.toNat + 4) top memory (memory.writeWord mark count.toUInt32) :=
      Memory.same_writeWord _ (by simp only [memorySize] at high; omega) (by omega)
    rw [elementWord_same rest (by omega) (by omega) high,
      elementWord_zero zeros (by omega) (by omega) high]
    exact represents_initial writable

/-- An array that is allocated. -/
theorem Stored.allocate {count : Nat} (stored : Stored P s blocks memory mark) (fits : P.Fits)
    (writable : element.isWritable = true) (enough : arraySize element count ≤ s.room) :
    Stored P
      { s with
        heap := s.heap ++ [newCell element count]
        room := s.room - (arraySize element count + 7) / 8 * 8 }
      (blocks ++ [newBlock element count mark]) (memory.writeWord mark count.toUInt32)
      (Routine.roundUp (mark + (arraySize element count).toUInt32)) := by
  obtain ⟨next, rounded⟩ := stored.toNat_roundUp enough
  have room := stored.room
  have limit : heapLimit ≤ memorySize := by decide
  have size : 4 ≤ arraySize element count := by simp [arraySize, wordSize]
  have grows : Grows s.heap (s.heap ++ [newCell element count]) blocks
      (blocks ++ [newBlock element count mark]) := grows_append _ _
  have same {low high : Nat} (outside : mark.toNat + 4 ≤ low ∨ high ≤ mark.toNat) :
      Memory.Same low high memory (memory.writeWord mark count.toUInt32) :=
    Memory.same_writeWord _ (by simp only [memorySize] at limit; omega) outside
  have high : Memory.Same P.frameBottom memorySize memory (memory.writeWord mark count.toUInt32) :=
    same (by simp only [Setting.frameBottom, Setting.Fits] at *; omega)
  have low := stored.low
  refine ⟨stored.data.trans (same (by omega)), ?_, stored.caller_same high, stored.back_same high,
    ?_, ?_, ?_, ?_, ?_, ?_, ?_⟩
  · intro i name shape found
    exact (stored.slot_same fits high found).grow grows
  · simp [stored.count]
  · intro r cell block here there
    rcases Nat.lt_or_ge r s.heap.length with old | new
    · rw [List.getElem?_append_left old] at here
      rw [List.getElem?_append_left (stored.count ▸ old)] at there
      have inside := stored.tidy.within block (List.mem_of_getElem? there)
      exact ((stored.cell here there).same (by omega) (same (by omega))).grow grows
    · rw [List.getElem?_append_right new] at here
      rw [List.getElem?_append_right (stored.count ▸ new), stored.count] at there
      obtain ⟨last, rfl⟩ : r - s.heap.length = 0 ∧ newCell element count = cell := by
        simpa [List.getElem?_singleton] using here
      obtain rfl : newBlock element count mark = block := by simpa [last] using there
      exact holding_new writable (by omega) limit stored.fresh
  · exact stored.tidy.append stored.low rfl (by simp only [newBlock]; omega)
      (by simp only [newBlock]; omega)
  · omega
  · rw [next]
    have aligned := stored.aligned
    omega
  · simp only
    omega
  · intro b above below
    have unused : Memory.Same (mark.toNat + 4) heapLimit memory
        (memory.writeWord mark count.toUInt32) := same (by omega)
    rw [unused b (by omega) below]
    exact stored.fresh b (by omega) below

end

end Onepass.Simulation
