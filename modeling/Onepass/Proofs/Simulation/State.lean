import Onepass.Proofs.Interpreter
import Onepass.Proofs.Machine.Ledger
import Onepass.Proofs.Vocabulary

/-! How a machine that runs a compiled program stands for a state of the interpreter. Variables lie
in the slots of the frame, arrays in blocks of the heap in the order of their cells, strings in the
data, and the operands that wait for others on the stack. The relation survives any change below
the stack pointer. -/
namespace Onepass.Simulation

open Assembly (Layout)
open Codegen (formatInt formatChar formatString boundsLabel localLabel)
open Codegen.Builder (stringLabel boundsRoutine)
open Interpreter (Value Cell State arraySize)
open Machine
open Syntax (Context)

/-- The print formats with their labels. -/
def formats : List (Bytes × Bytes) :=
  [(formatInt, "%d\n"), (formatChar, "%c\n"), (formatString, "%s\n")]

/-- The constants of a program's data: the formats, and the header, the contents and the end of
every pooled string. -/
def constants (symbol? : Bytes → Option Word) (strings : List Bytes) : List Constant :=
  (formats.filterMap fun (name, contents) =>
    (symbol? name).map fun a => ⟨a, contents.length + 1⟩) ++
  strings.zipIdx.flatMap fun (value, index) =>
    ((symbol? (stringLabel index)).map fun a =>
      [⟨a, 4⟩, ⟨a + 4, value.length⟩, ⟨a + 4 + value.length.toUInt32, 1⟩]).getD []

/-- What is fixed while a compiled program runs. -/
structure Setting where
  platform : Platform
  layout : Layout
  text : Array Instr
  /-- The memory after loading. -/
  data : Memory
  /-- Where the data ends. -/
  dataEnd : Nat
  strings : List Bytes
  locals : Context
  /-- What was written before the program started. -/
  written : Bytes

namespace Setting

variable (P : Setting)

/-- The constants of the program. -/
def constants : List Constant := Simulation.constants P.layout.symbol? P.strings

/-- Whether bytes stand in the data at an address. -/
structure Holds (a : Word) (bytes : Bytes) : Prop where
  above : Assembly.dataBase.toNat ≤ a.toNat
  below : a.toNat + bytes.length ≤ P.dataEnd
  byte : ∀ {i : Nat} {b : UInt8}, bytes[i]? = some b → P.data.read (a + i.toUInt32) = b

/-- Whether code from an index on shows all local labels that come after its start. -/
def Shows (index : Nat) (code : Assembly.Code) : Prop :=
  ∀ {k place : Nat}, P.layout.label? (localLabel k) = some place → index < place →
    (localLabel k, place) ∈ code.places index

/-- Whether a label stands before some code, which is the rest of the program. -/
def Labelled (name : Bytes) (code : Assembly.Code) : Prop :=
  ∃ index, P.layout.label? name = some index ∧ Assembly.Placed P.layout P.text index code ∧
    P.Shows index code

/-- What loading a compiled program guarantees. -/
structure Valid : Prop where
  routine : ∀ name ∈ [Routine.printf.name, Routine.malloc.name, Routine.abort.name],
    P.layout.label? (P.platform.symbol name) = none
  bounds : P.Labelled boundsLabel ((boundsRoutine P.platform).drop 1)
  apart : ∀ {k index : Nat}, P.layout.label? boundsLabel = some index →
    P.layout.label? (localLabel k) ≠ some index
  format : ∀ {name contents : Bytes}, (name, contents) ∈ formats →
    ∃ a, P.layout.symbol? name = some a ∧ P.Holds a (contents ++ [0])
  string : ∀ {index : Nat} {value : Bytes}, P.strings[index]? = some value →
    ∃ a, P.layout.symbol? (stringLabel index) = some a ∧
      P.Holds a (Word.bytes value.length.toUInt32 ++ value ++ [0])
  low : Assembly.dataBase.toNat ≤ P.dataEnd
  high : P.dataEnd ≤ heapLimit
  names : (P.locals.map Prod.fst).Nodup
  writable : ∀ entry ∈ P.locals, entry.2.isWritable = true

/-- The lowest address of the frame. -/
def frameBottom : Nat := memorySize - 8 - 4 * P.locals.length

/-- Whether the frame lies in the reserved stack. -/
def Fits : Prop := heapLimit + 4 * P.locals.length ≤ memorySize - 8

end Setting

/-- The base of the frame: above it are the saved base and the return address. -/
def frameBase : Word := (memorySize - 8).toUInt32

/-- Whether the stack ends with the frame. -/
structure Setting.Level (P : Setting) (r : Registers) : Prop where
  base : r.ebp = frameBase
  top : r.esp.toNat = P.frameBottom

/-- Whether a program may jump to a label: at the place of a local label the stack must end with the
frame. -/
def Setting.MayJump (P : Setting) (name : Bytes) (r : Registers) : Prop :=
  ∀ {k index : Nat}, P.layout.label? name = some index →
    P.layout.label? (localLabel k) = some index → P.Level r

/-- Where the slot with an index lies. -/
def slotAddress (i : Nat) : Word := (memorySize - 8 - 4 * (i + 1)).toUInt32

/-- The register that holds values of a type. -/
def resultRegister (shape : Shape) : Register := if shape.isHeap then .esi else .eax

/-- What a word says about a value of a type, given the cells and their blocks. -/
inductive Represents (P : Setting) (heap : List Cell) (blocks : Ledger) :
    Shape → Value → Word → Prop where
  | int (n : Int32) : Represents P heap blocks .int (.int n) n.toUInt32
  | char (c : UInt8) : Represents P heap blocks .char (.char c) c.toUInt32
  | noText : Represents P heap blocks .string (.text none) 0
  | text {index : Nat} {contents : Bytes} {a : Word} (known : P.strings[index]? = some contents)
      (placed : P.layout.symbol? (stringLabel index) = some a) :
      Represents P heap blocks .string (.text (some contents)) a
  | noArray (element : Shape) : Represents P heap blocks (.array element) (.array none) 0
  | array {r : Nat} {cell : Cell} {block : Block} (here : heap[r]? = some cell)
      (there : blocks[r]? = some block) :
      Represents P heap blocks (.array cell.element) (.array (some r)) block.address

/-- The word that an element of a type has in memory. -/
def elementWord (element : Shape) (memory : Memory) (a : Word) : Word :=
  if element = .char then (memory.read a).toUInt32 else memory.readWord a

/-- Where an element of a block lies. -/
def elementAddress (element : Shape) (block : Block) (i : Nat) : Word :=
  block.address + (4 + i * element.size).toUInt32

/-- Whether a block holds an array. -/
structure Holding (P : Setting) (heap : List Cell) (blocks : Ledger) (memory : Memory)
    (cell : Cell) (block : Block) : Prop where
  length : block.length = some cell.values.length.toUInt32
  size : block.size = arraySize cell.element cell.values.length
  header : memory.readWord block.address = cell.values.length.toUInt32
  element : ∀ {i : Nat} {v : Value}, cell.values[i]? = some v →
    Represents P heap blocks cell.element v
      (elementWord cell.element memory (elementAddress cell.element block i))

/-- Whether memory holds a state. -/
structure Stored (P : Setting) (s : State) (blocks : Ledger) (memory : Memory) (heap : Word) :
    Prop where
  data : Memory.Same 0 P.dataEnd P.data memory
  slot : ∀ {i : Nat} {name : Bytes} {shape : Shape}, P.locals[i]? = some (name, shape) →
    Represents P s.heap blocks shape (s.binding name) (memory.readWord (slotAddress i))
  /-- The base register of the caller is zero. -/
  caller : memory.readWord frameBase = 0
  back : memory.readWord (memorySize - 4).toUInt32 = returnSentinel
  count : blocks.length = s.heap.length
  cell : ∀ {r : Nat} {cell : Cell} {block : Block}, s.heap[r]? = some cell →
    blocks[r]? = some block → Holding P s.heap blocks memory cell block
  tidy : blocks.Tidy P.dataEnd heap.toNat
  low : P.dataEnd ≤ heap.toNat
  aligned : heap.toNat % 8 = 0
  room : heap.toNat + s.room = heapLimit
  fresh : ∀ a : Word, heap.toNat ≤ a.toNat → a.toNat < heapLimit → memory.read a = 0

/-- Whether words lie on the stack from the stack pointer up to the frame. -/
structure Stacked (P : Setting) (words : List Word) (memory : Memory) (esp : Word) : Prop where
  place : esp.toNat + 4 * words.length = P.frameBottom
  word : ∀ {i : Nat} {w : Word}, words[i]? = some w →
    memory.readWord (esp.toNat + 4 * i).toUInt32 = w

/-- Whether a machine runs a program inside its stack, with these blocks given out. -/
structure Ready (P : Setting) (blocks : Ledger) (m : Machine) : Prop where
  text : m.text = P.text
  running : m.halted = false
  status : m.status = 0
  inside : m.InStack
  tidy : blocks.Tidy P.dataEnd heapLimit

/-- Whether a machine stands for a state, with words on its stack. -/
structure Matches (P : Setting) (s : State) (blocks : Ledger) (words : List Word) (m : Machine) :
    Prop where
  ready : Ready P blocks m
  base : m.registers.ebp = frameBase
  stack : Stacked P words m.memory m.registers.esp
  stored : Stored P s blocks m.memory m.heap
  output : m.sink.written = P.written ++ s.output

/-- What holds of every state in which a compiled program makes a step. -/
structure Setting.Watch (P : Setting) (blocks : Ledger) (m : Machine) : Prop where
  safe : Safe P.constants blocks m
  tidy : blocks.Tidy P.dataEnd heapLimit
  /-- A return goes back to the caller, with its stack and base and the status zero. -/
  returns : m.fetch?.map Instr.mnemonic = some .ret →
    m.memory.readWord m.registers.esp = returnSentinel ∧
      m.registers.esp = (memorySize - 4).toUInt32 ∧ m.registers.ebp = 0 ∧ m.registers.eax = 0
  /-- At a local label the stack ends with the frame. -/
  level : ∀ {k index : Nat}, P.layout.label? (localLabel k) = some index → m.pc = index →
    P.Level m.registers
  aligned : P.platform.alignsCalls = true → m.fetch?.map Instr.mnemonic = some .call →
    m.registers.esp.toNat % 16 = 0

/-- Whether cells and blocks are still there. -/
structure Grows (heap later : List Cell) (blocks after : Ledger) : Prop where
  cell : ∀ {r : Nat} {c : Cell}, heap[r]? = some c → ∃ d, later[r]? = some d ∧
    d.element = c.element ∧ d.values.length = c.values.length
  block : ∀ {r : Nat} {b : Block}, blocks[r]? = some b → ∃ d, after[r]? = some d ∧
    d.address = b.address

section

variable {P : Setting} {s : State} {heap later : List Cell} {blocks after : Ledger}
  {shape : Shape} {v : Value} {w : Word} {memory changed : Memory} {mark : Word} {m n : Machine}

theorem Grows.refl (heap : List Cell) (blocks : Ledger) : Grows heap heap blocks blocks :=
  ⟨fun found => ⟨_, found, rfl, rfl⟩, fun found => ⟨_, found, rfl⟩⟩

theorem Grows.trans {last : List Cell} {final : Ledger} (first : Grows heap later blocks after)
    (second : Grows later last after final) : Grows heap last blocks final where
  cell found := by
    obtain ⟨c, found, element, length⟩ := first.cell found
    obtain ⟨d, found, same, whole⟩ := second.cell found
    exact ⟨d, found, same.trans element, whole.trans length⟩
  block found := by
    obtain ⟨b, found, address⟩ := first.block found
    obtain ⟨d, found, same⟩ := second.block found
    exact ⟨d, found, same.trans address⟩

/-- Values stay what they are when cells and blocks are added. -/
theorem Represents.grow (represents : Represents P heap blocks shape v w)
    (grows : Grows heap later blocks after) : Represents P later after shape v w := by
  cases represents with
  | int n => exact .int n
  | char c => exact .char c
  | noText => exact .noText
  | text known placed => exact .text known placed
  | noArray element => exact .noArray element
  | array here there =>
    obtain ⟨c, here, element, _⟩ := grows.cell here
    obtain ⟨b, there, address⟩ := grows.block there
    rw [← element, ← address]
    exact .array here there

/-- A word of zeros is the first value of every type that programs can write. -/
theorem represents_initial (writable : shape.isWritable = true) :
    Represents P heap blocks shape (.initial shape) 0 := by
  cases shape with
  | int => exact .int 0
  | char => exact .char 0
  | string => exact .noText
  | array element => exact .noArray element
  | other => cases writable

theorem Stored.sealed (stored : Stored P s blocks memory mark) : blocks.Sealed := by
  intro b member
  obtain ⟨r, bound, found⟩ := List.getElem_of_mem member
  have there : blocks[r]? = some b := by rw [List.getElem?_eq_getElem bound, found]
  have bound : r < s.heap.length := stored.count ▸ bound
  have holding := stored.cell (List.getElem?_eq_getElem bound) there
  simp [holding.length]

theorem Shape.size_pos (shape : Shape) : 0 < shape.size := by
  cases shape <;> simp [Shape.size, wordSize]

/-- Elements of other types than `char` are words. -/
theorem size_of_ne_char (other : shape ≠ .char) : shape.size = 4 := by
  cases shape <;> simp_all [Shape.size, wordSize]

theorem elementWord_same {low high : Nat} {a : Word} (same : Memory.Same low high memory changed)
    (above : low ≤ a.toNat) (below : a.toNat + shape.size ≤ high) (small : high ≤ memorySize) :
    elementWord shape changed a = elementWord shape memory a := by
  unfold elementWord
  split
  · rename_i char
    subst char
    rw [same a above (by simp only [Shape.size] at below; omega)]
  · rename_i other
    rw [size_of_ne_char other] at below
    exact same.readWord above below (le_trans (le_trans below small) (by decide))

/-- The place of an element in its block. -/
theorem toNat_elementAddress {cell : Cell} {block : Block} {i : Nat}
    (size : block.size = arraySize cell.element cell.values.length)
    (bound : i < cell.values.length) (small : block.address.toNat + block.size ≤ memorySize) :
    (elementAddress cell.element block i).toNat =
        block.address.toNat + 4 + i * cell.element.size ∧
      4 + i * cell.element.size + cell.element.size ≤ block.size := by
  have product : (i + 1) * cell.element.size ≤ cell.values.length * cell.element.size :=
    Nat.mul_le_mul_right _ bound
  have within : 4 + i * cell.element.size + cell.element.size ≤ block.size := by
    rw [size, arraySize, wordSize]
    rw [Nat.add_mul] at product
    omega
  have bytes := Shape.size_pos cell.element
  simp only [memorySize] at small
  refine ⟨?_, within⟩
  have offset : (4 + i * cell.element.size).toUInt32.toNat = 4 + i * cell.element.size :=
    Word.toNat_natCast (by omega)
  rw [elementAddress, Word.toNat_add_of_lt (by rw [offset]; omega), offset]
  omega

theorem Holding.grow {cell : Cell} {block : Block}
    (holding : Holding P heap blocks memory cell block) (grows : Grows heap later blocks after) :
    Holding P later after memory cell block where
  length := holding.length
  size := holding.size
  header := holding.header
  element found := (holding.element found).grow grows

/-- What a block holds depends on its bytes only. -/
theorem Holding.same {cell : Cell} {block : Block}
    (holding : Holding P heap blocks memory cell block)
    (small : block.address.toNat + block.size ≤ memorySize)
    (same : Memory.Same block.address.toNat (block.address.toNat + block.size) memory changed) :
    Holding P heap blocks changed cell block where
  length := holding.length
  size := holding.size
  header := by
    have size := holding.size
    rw [arraySize, wordSize] at size
    rw [same.readWord (by omega) (by omega) (le_trans (by omega) (le_trans small (by decide)))]
    exact holding.header
  element {i v} found := by
    have bound := (List.getElem?_eq_some_iff.mp found).1
    obtain ⟨place, within⟩ := toNat_elementAddress holding.size bound small
    rw [elementWord_same same (by omega) (by omega) small]
    exact holding.element found

theorem Stored.top (stored : Stored P s blocks memory mark) : mark.toNat ≤ heapLimit := by
  have room := stored.room
  omega

/-- Blocks lie between the data and the stack. -/
theorem Stored.block_within {block : Block} (stored : Stored P s blocks memory mark)
    (member : block ∈ blocks) :
    P.dataEnd ≤ block.address.toNat ∧ block.address.toNat + block.size ≤ heapLimit := by
  have within := stored.tidy.within block member
  have top := stored.top
  omega

theorem toNat_slotAddress (i : Nat) : (slotAddress i).toNat = memorySize - 8 - 4 * (i + 1) :=
  Word.toNat_natCast (by simp only [memorySize]; omega)

/-- The frame of a program that runs inside its stack fits. -/
theorem Matches.fits {words : List Word} (matched : Matches P s blocks words m) : P.Fits := by
  have place := matched.stack.place
  have low := matched.ready.inside.1
  simp only [Setting.Fits, Setting.frameBottom, heapLimit, memorySize, stackSize] at *
  omega

theorem Stored.slot_same (stored : Stored P s blocks memory mark) (fits : P.Fits)
    (high : Memory.Same P.frameBottom memorySize memory changed) {i : Nat} {name : Bytes}
    (found : P.locals[i]? = some (name, shape)) :
    Represents P s.heap blocks shape (s.binding name) (changed.readWord (slotAddress i)) := by
  have bound := (List.getElem?_eq_some_iff.mp found).1
  have place := toNat_slotAddress i
  simp only [Setting.Fits, memorySize] at place fits
  rw [high.readWord (by simp only [Setting.frameBottom, memorySize]; omega)
    (by simp only [memorySize]; omega) (by omega)]
  exact stored.slot found

theorem Stored.caller_same (stored : Stored P s blocks memory mark)
    (high : Memory.Same P.frameBottom memorySize memory changed) :
    changed.readWord frameBase = 0 := by
  have place : frameBase.toNat = memorySize - 8 := rfl
  rw [high.readWord (by rw [place, Setting.frameBottom]; omega) (by rw [place]; decide)
    (by rw [place]; decide)]
  exact stored.caller

theorem Stored.back_same (stored : Stored P s blocks memory mark)
    (high : Memory.Same P.frameBottom memorySize memory changed) :
    changed.readWord (memorySize - 4).toUInt32 = returnSentinel := by
  have place : (memorySize - 4).toUInt32.toNat = memorySize - 4 := rfl
  rw [high.readWord (by rw [place, Setting.frameBottom]; omega) (by rw [place]; decide)
    (by rw [place]; decide)]
  exact stored.back

/-- The data and the heap do not depend on what lies above them. -/
theorem Stored.frame {binding : Bytes → Value} (stored : Stored P s blocks memory mark)
    (low : Memory.Same 0 heapLimit memory changed)
    (slot : ∀ {i : Nat} {name : Bytes} {shape : Shape}, P.locals[i]? = some (name, shape) →
      Represents P s.heap blocks shape (binding name) (changed.readWord (slotAddress i)))
    (caller : changed.readWord frameBase = 0)
    (back : changed.readWord (memorySize - 4).toUInt32 = returnSentinel) :
    Stored P { s with binding } blocks changed mark where
  data := by
    have top := stored.top
    have start := stored.low
    exact stored.data.trans (low.mono (le_refl 0) (by omega))
  slot := slot
  caller := caller
  back := back
  count := stored.count
  cell {r cell block} here there := by
    have within := stored.block_within (List.mem_of_getElem? there)
    have small : heapLimit ≤ memorySize := by decide
    exact (stored.cell here there).same (by omega) (low.mono (Nat.zero_le _) within.2)
  tidy := stored.tidy
  low := stored.low
  aligned := stored.aligned
  room := stored.room
  fresh a above below := by
    rw [low a (Nat.zero_le _) below]
    exact stored.fresh a above below

/-- The stack below the frame does not matter. -/
theorem Stored.same (stored : Stored P s blocks memory mark) (fits : P.Fits)
    (low : Memory.Same 0 heapLimit memory changed)
    (high : Memory.Same P.frameBottom memorySize memory changed) :
    Stored P s blocks changed mark :=
  stored.frame low (fun found => stored.slot_same fits high found) (stored.caller_same high)
    (stored.back_same high)

end

end Onepass.Simulation
