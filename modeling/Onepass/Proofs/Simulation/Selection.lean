import Onepass.Proofs.Simulation.Calls
import Onepass.Proofs.Simulation.Data

/-! Selecting an element. The index is checked against the length in the header; then the pointer is
moved, and the element is found past the header. Strings and arrays are checked alike. -/
namespace Onepass.Simulation

open Assembly (Code)
open Interpreter (Value State Eval Cell arraySize)
open Machine

/-- Whether a pointer leads to a header that holds a length. -/
structure HasLength (P : Setting) (blocks : Ledger) (memory : Memory) (w : Word) (length : Nat) :
    Prop where
  low : Assembly.dataBase.toNat ≤ w.toNat
  high : w.toNat + 4 + length ≤ heapLimit
  header : memory.readWord w = length.toUInt32
  permitted : ∀ m : Machine, Permitted P.constants blocks m ⟨w, 4, false⟩

section

variable {P : Setting} {s : State} {blocks : Ledger} {words : List Word} {rest code : Code}
  {goal : Ledger → Machine → Prop} {m : Machine} {memory : Memory} {mark w : Word}

theorem hasLength_text {index : Nat} {contents : Bytes} (valid : P.Valid)
    (stored : Stored P s blocks memory mark) (known : P.strings[index]? = some contents)
    (placed : P.layout.symbol? (Codegen.Builder.stringLabel index) = some w) :
    HasLength P blocks memory w contents.length := by
  obtain ⟨_, found, holds⟩ := valid.string known
  obtain rfl := Option.some.inj (placed.symm.trans found)
  have below := holds.below
  have high := valid.high
  simp only [List.length_append, Word.bytes, List.length_cons, List.length_nil] at below
  refine ⟨holds.above, by omega, ?_, fun m => ?_⟩
  · rw [List.append_assoc] at holds
    exact stored.read_header holds high
  · exact .constant ⟨w, 4⟩ (mem_constants_string known placed (by simp)) rfl (le_refl _) (le_refl _)

theorem hasLength_array {r : Nat} {cell : Cell} {block : Block} (valid : P.Valid)
    (stored : Stored P s blocks memory mark) (here : s.heap[r]? = some cell)
    (there : blocks[r]? = some block) :
    HasLength P blocks memory block.address cell.values.length := by
  have holding := stored.cell here there
  have member := List.mem_of_getElem? there
  obtain ⟨low, high⟩ := stored.block_within member
  have size := holding.size
  have product := Nat.le_mul_of_pos_right cell.values.length (Shape.size_pos cell.element)
  simp only [arraySize, wordSize] at size
  refine ⟨le_trans valid.low low, by omega, holding.header, fun m => ?_⟩
  exact .header block member rfl rfl fun written => by cases written

theorem HasLength.small {length : Nat} (has : HasLength P blocks memory w length) :
    length ≤ 0x80000000 := by
  have high := has.high
  simp only [heapLimit, memorySize, stackSize] at high
  omega

/-- A signed index is inside some length exactly if it is below it as a word. -/
theorem position_iff {i : Int32} {length : Nat} (small : length ≤ 0x80000000) :
    (0 ≤ i.toInt ∧ i.toInt < length) ↔ i.toUInt32.toNat < length := by
  have value := Word.toInt_eq i.toUInt32
  have bound := i.toUInt32.toNat_lt
  rw [Word.toInt_toUInt32] at value
  rw [value]
  split <;> omega

theorem toNat_position {i : Int32} (positive : 0 ≤ i.toInt) :
    i.toInt.toNat = i.toUInt32.toNat := by
  have value := Word.toInt_eq i.toUInt32
  have bound := i.toUInt32.toNat_lt
  rw [Word.toInt_toUInt32] at value
  split at value <;> omega

/-- An index is checked against the length in the header. -/
theorem leads_check {i : Int32} {length : Nat} (valid : P.Valid)
    (matched : Matches P s blocks words m) (before : Before P (Codegen.boundsCheck ++ rest) m)
    (pointer : m.registers.get .esi = w) (index : m.registers.get .eax = i.toUInt32)
    (has : HasLength P blocks m.memory w length)
    (outside : ¬ (0 ≤ i.toInt ∧ i.toInt < length) → ∀ n, Fails P s .bounds blocks n →
      Leads P.Watch goal blocks n)
    (onward : 0 ≤ i.toInt ∧ i.toInt < length → ∀ n, Matches P s blocks words n →
      Before P rest n → n.registers = m.registers → n.memory = m.memory →
      Leads P.Watch goal blocks n) :
    Leads P.Watch goal blocks m := by
  have high := has.high
  simp only [heapLimit, memorySize, stackSize] at high
  have address : m.registers.get .esi + (0 : Int32).toUInt32 = w := by
    rw [pointer]
    exact UInt32.add_zero w
  have fine : accessible w 4 = true :=
    accessible_of has.low (by simp only [memorySize]; omega)
  have reads : Readable P blocks m.registers m.memory (.at 0 .esi) length.toUInt32 :=
    has.header ▸ readable_at address fine fun m _ _ => has.permitted m
  have inside : (Flags.ofSub (m.registers.get .eax) length.toUInt32).holds .aboveEqual = false ↔
      0 ≤ i.toInt ∧ i.toInt < length := by
    have small : length.toUInt32.toNat = length := Word.toNat_natCast (by omega)
    rw [position_iff (by omega), index]
    simp [Flags.holds, Flags.ofSub, Flags.withResult, UInt32.lt_iff_toNat_lt, small]
  refine (At.start matched.ready before).cmpl rfl rfl reads (readable_register .eax) fun n there =>
    there.branch rfl rfl valid.bounds (fun known other => absurd other (valid.apart known))
      (fun taken o there => ?_) fun passed o there => ?_
  · refine leads_abort valid matched there fun o fails => outside (fun both => ?_) o fails
    rw [inside.mpr both] at taken
    cases taken
  · exact onward (inside.mp passed) o (there.keeps matched rfl rfl) there.before there.registers
      there.memory

/-- Going through a null pointer fails. -/
theorem fails_null (matched : Matches P s blocks words m)
    (before : Before P (Codegen.boundsCheck ++ rest) m) (pointer : m.registers.get .esi = 0) :
    Fails P s .null blocks m := by
  have here := At.start matched.ready before
  have address : m.registers.get .esi + (0 : Int32).toUInt32 = 0 := by
    rw [pointer]
    rfl
  have reads : perform (Exec.read (.at 0 .esi)) m.next = (.error (.badAccess 4 0), m.next) :=
    read_memory_fault address (by decide)
  have done (line : Int) : perform (Machine.execute ⟨.cmpl, [.at 0 .esi, .full .eax], line⟩) m.next =
      (.error (.badAccess 4 0), m.next) := execute_cmpl_fault reads
  have below : (0 : Word) < Assembly.dataBase := by decide
  obtain ⟨watched, i, stopped⟩ := here.fault (instruction_two rfl rfl rfl rfl rfl) (by decide)
    (by decide) (by decide) (fun i fails line access member => by
      have only : access ∈ (Operand.at 0 .esi).accesses m 4 false ++ [] := member
      rw [List.append_nil, mem_accesses_at rfl address] at only
      subst only
      exact .null below i fails) done
  exact here.fails matched.output watched stopped (.null below i)

theorem scaleIndex_eq (element : Shape) :
    Codegen.scaleIndex element.size =
      if element = .char then []
      else [.instruction "shll" [Codegen.constant 2, Codegen.eax]] := by
  by_cases char : element = .char
  · subst char
    rfl
  · rw [if_neg char, size_of_ne_char char]
    rfl

/-- The pointer is moved by the size of the elements before the one that is selected. -/
theorem leads_point {i : Word} (element : Shape) (matched : Matches P s blocks words m)
    (before : Before P (Codegen.scaleIndex element.size ++ (Codegen.addIndex ++ rest)) m)
    (pointer : m.registers.get .esi = w) (index : m.registers.get .eax = i)
    (onward : ∀ n, Matches P s blocks words n → Before P rest n →
      n.registers.get .esi = w + (i.toNat * element.size).toUInt32 → n.memory = m.memory →
      Leads P.Watch goal blocks n) : Leads P.Watch goal blocks m := by
  rw [scaleIndex_eq] at before
  by_cases char : element = .char
  · rw [if_pos char, List.nil_append] at before
    refine (At.start matched.ready before).arithmetic rfl rfl rfl rfl (readable_register .eax)
      (readable_register .esi) (writable_register .esi _) fun n there =>
      onward n (there.keeps matched rfl rfl) there.before ?_ there.memory
    rw [there.registers, char, pointer, index]
    change w + i = w + (i.toNat * 1).toUInt32
    simp
  · rw [if_neg char] at before
    have shift : (Int32.ofInt (Codegen.wrap 2)).toUInt32 &&& 31 = 2 := by decide
    refine (At.start matched.ready before).shll rfl rfl fun n there => ?_
    rw [shift] at there
    refine there.arithmetic rfl rfl rfl rfl (readable_register .eax)
      (readable_register .esi) (writable_register .esi _) fun n there =>
      onward n (there.keeps matched rfl rfl) there.before ?_ there.memory
    have scaled : i <<< 2 = (i.toNat * 4).toUInt32 := by
      apply UInt32.toNat_inj.mp
      simp [UInt32.toNat_shiftLeft, Nat.shiftLeft_eq]
    rw [there.registers, size_of_ne_char char, ← scaled, ← pointer, ← index]
    rfl

theorem loadAt_eq {element : Shape} (other : element ≠ .char) (offset : Int) :
    Codegen.loadAt (.ofShape element) offset =
      [.instruction "movl" [Codegen.based offset "esi", resultOperand element]] := by
  cases element with
  | char => exact absurd rfl other
  | _ => rfl

/-- An element is loaded into the register of its type. -/
theorem leads_loadAt {element : Shape} {a : Word} (matched : Matches P s blocks words m)
    (before : Before P (Codegen.loadAt (.ofShape element) wordSize ++ rest) m)
    (address : m.registers.get .esi + 4 = a) (fine : accessible a element.size = true)
    (allowed : ∀ m : Machine, Permitted P.constants blocks m ⟨a, element.size, false⟩)
    (onward : ∀ n, Matches P s blocks words n → Before P rest n →
      n.registers.get (resultRegister element) = elementWord element m.memory a →
      Leads P.Watch goal blocks n) : Leads P.Watch goal blocks m := by
  have offset : (Int32.ofInt (Codegen.wrap wordSize)).toUInt32 = 4 := by decide
  rw [← offset] at address
  by_cases char : element = .char
  · subst char
    refine (At.start matched.ready before).movzbl rfl rfl address fine (allowed m) fun n there =>
      onward n (there.keeps matched rfl rfl) there.before ?_
    rw [there.registers]
    rfl
  · rw [loadAt_eq char] at before
    rw [size_of_ne_char char] at fine allowed
    refine leads_load matched before rfl (operand_result element)
      (readable_at address fine fun m _ _ => allowed m) (resultRegister_ne element)
      fun n matched before there => onward n matched before ?_
    rw [there, Registers.get_set, if_pos rfl, elementWord, if_neg char]

end

section Elements

variable {P : Setting} {s : State} {blocks : Ledger} {memory : Memory} {mark : Word} {r place : Nat}
  {cell : Cell} {block : Block}

/-- Where an element of an array lies, and that it may be accessed. -/
theorem Stored.element (valid : P.Valid) (stored : Stored P s blocks memory mark)
    (here : s.heap[r]? = some cell) (there : blocks[r]? = some block)
    (bound : place < cell.values.length) (isWrite : Bool) :
    accessible (elementAddress cell.element block place) cell.element.size = true ∧
      ∀ m : Machine, Permitted P.constants blocks m
        ⟨elementAddress cell.element block place, cell.element.size, isWrite⟩ := by
  have holding := stored.cell here there
  have member := List.mem_of_getElem? there
  obtain ⟨low, high⟩ := stored.block_within member
  have limit : heapLimit ≤ memorySize := by decide
  obtain ⟨address, within⟩ := toNat_elementAddress holding.size bound (by omega)
  have start := valid.low
  have has := (hasLength_array valid stored here there).high
  have count : cell.values.length.toUInt32.toNat = cell.values.length :=
    Word.toNat_natCast (by simp only [heapLimit, memorySize, stackSize] at has; omega)
  refine ⟨accessible_of (by omega) (by omega), fun m => ?_⟩
  refine .element block member _ holding.length ?_ place (by rw [count]; exact bound) address
  rw [count]
  exact holding.size

/-- The address of an element, as code computes it. -/
theorem elementAddress_eq (element : Shape) (block : Block) (place : Nat) :
    block.address + (place * element.size).toUInt32 + 4 = elementAddress element block place := by
  rw [elementAddress, UInt32.add_assoc]
  congr 1
  simp [UInt32.add_comm]

end Elements

section Index

variable {P : Setting} {s : State} {blocks : Ledger} {words : List Word} {rest first second : Code}
  {goal : Ledger → Machine → Prop} {m : Machine} {shape element : Shape} {left right : Eval Value}

/-- An index outside a length stops the evaluation. -/
theorem perform_position {β : Type} (length : Nat) (i : Int32) (next : Nat → Eval β) (s : State) :
    perform (Interpreter.position length i >>= next) s =
      if 0 ≤ i.toInt ∧ i.toInt < length then perform (next i.toInt.toNat) s
      else (.error .bounds, s) := by
  unfold Interpreter.position
  split <;> rfl

theorem perform_fetch {r : Nat} {cell : Cell} (found : s.heap[r]? = some cell) :
    perform (Interpreter.fetch r) s = (.ok cell, s) := by
  simp only [Interpreter.fetch, perform_bind, perform_get, found]
  rfl

theorem perform_select_text (contents : Bytes) (i : Int32) (s : State) :
    perform (Interpreter.select (.text (some contents)) (.int i)) s =
      if 0 ≤ i.toInt ∧ i.toInt < contents.length then
        (.ok (.char (contents.getD i.toInt.toNat 0)), s)
      else (.error .bounds, s) :=
  perform_position ..

theorem perform_select_array {r : Nat} {cell : Cell} (found : s.heap[r]? = some cell) (i : Int32) :
    perform (Interpreter.select (.array (some r)) (.int i)) s =
      if 0 ≤ i.toInt ∧ i.toInt < cell.values.length then
        (.ok (cell.values.getD i.toInt.toNat (.initial cell.element)), s)
      else (.error .bounds, s) := by
  simp only [Interpreter.select]
  rw [perform_bind, perform_fetch found]
  exact perform_position ..

theorem perform_locate {r : Nat} {cell : Cell} (found : s.heap[r]? = some cell) (i : Int32) :
    perform (Interpreter.locate (.array (some r)) (.int i)) s =
      if 0 ≤ i.toInt ∧ i.toInt < cell.values.length then (.ok (r, i.toInt.toNat), s)
      else (.error .bounds, s) := by
  simp only [Interpreter.locate]
  rw [perform_bind, perform_fetch found]
  exact perform_position ..

/-- A character of a string may be read. -/
theorem Stored.character {index place : Nat} {contents : Bytes} {w mark : Word} {memory : Memory}
    (valid : P.Valid) (stored : Stored P s blocks memory mark)
    (known : P.strings[index]? = some contents)
    (placed : P.layout.symbol? (Codegen.Builder.stringLabel index) = some w)
    (bound : place < contents.length) :
    accessible (w + 4 + place.toUInt32) 1 = true ∧
      (∀ m : Machine, Permitted P.constants blocks m ⟨w + 4 + place.toUInt32, 1, false⟩) ∧
      memory.read (w + 4 + place.toUInt32) = contents.getD place 0 := by
  obtain ⟨_, found, holds⟩ := valid.string known
  obtain rfl := Option.some.inj (placed.symm.trans found)
  have address : w + 4 + place.toUInt32 = w + (4 + place).toUInt32 := by
    rw [UInt32.add_assoc]
    congr 1
    simp
  have length : (Word.bytes contents.length.toUInt32 ++ contents ++ [0]).length =
      4 + contents.length + 1 := by
    simp only [List.length_append, Word.bytes, List.length_cons, List.length_nil]
  have four := holds.toNat_add valid.high (show 4 ≤ _ by omega)
  have within := holds.toNat_add valid.high (show 4 + place ≤ _ by omega)
  have below := holds.below
  have above := holds.above
  have high := valid.high
  have limit : heapLimit ≤ memorySize := by decide
  have byte : (Word.bytes contents.length.toUInt32 ++ contents ++ [0])[4 + place]? =
      some (contents.getD place 0) := by
    rw [List.append_assoc, List.getElem?_append_right (by simp [Word.bytes]),
      List.getElem?_append_left (by simp [Word.bytes]; omega)]
    simp [Word.bytes, List.getD_eq_getElem?_getD, List.getElem?_eq_getElem bound]
  rw [address]
  refine ⟨accessible_of (by omega) (by omega), fun m => ?_, stored.read_data holds high byte⟩
  refine .constant ⟨w + 4, contents.length⟩ (mem_constants_string known placed (by simp)) rfl ?_ ?_
  · change (w + Nat.toUInt32 4).toNat ≤ (w + (4 + place).toUInt32).toNat
    omega
  · change (w + (4 + place).toUInt32).toNat + 1 ≤ (w + Nat.toUInt32 4).toNat + contents.length
    omega

/-- A container and an index are computed; then the container is in its register again. -/
theorem leads_operands {β : Type} {next : Value → Value → Eval β}
    {result : Except Interpreter.Stop β × State → Ledger → Machine → Prop}
    (container : Computes P first shape left) (selector : Computes P second .int right)
    (heap : shape.isHeap = true) (matched : Matches P s blocks words m)
    (before : Before P (first ++ (Codegen.pushPointer ++ (second ++ (Codegen.popPointer ++ rest)))) m)
    (stopped : ∀ {reason : Interpreter.Stop} {after : State} {later : Ledger} {n : Machine},
      Fails P after reason later n → result (.error reason, after) later n)
    (onward : ∀ (c : Value) (i : Int32) (after : State) (later : Ledger) (n : Machine),
      Matches P after later words n → Before P rest n →
      Represents P after.heap later shape c (n.registers.get .esi) →
      n.registers.get .eax = i.toUInt32 → Grows s.heap after.heap blocks later →
      Leads P.Watch (result (perform (next c (.int i)) after)) later n) :
    Leads P.Watch (result (perform (do let c ← left; let i ← right; next c i) s)) blocks m := by
  have pointer : resultRegister shape = .esi := by rw [resultRegister, heap, if_pos rfl]
  refine container.andThen matched before stopped fun c _ _ n matched before held grows => ?_
  rw [pointer] at held
  refine leads_push matched before rfl (readable_register .esi) rfl fun o matched before => ?_
  refine selector.andThen matched before stopped fun v _ _ p matched before number more => ?_
  have held := held.grow more
  generalize index : p.registers.get (resultRegister .int) = w at number
  cases number with
  | int i =>
    refine leads_pop matched before rfl (by decide) fun q matched before there => ?_
    refine onward c i _ _ q matched before ?_ ?_ (grows.trans more)
    · rw [there, Registers.get_set, if_pos rfl]
      exact held
    · rw [there]
      exact index

/-- The element of a container that an index selects is computed. -/
theorem computes_index (valid : P.Valid) (container : Computes P first shape left)
    (selector : Computes P second .int right) (found : shape.element? = some element) :
    Computes P (Generator.selection first second element ++
      Codegen.loadAt (.ofShape element) wordSize) element (do
        let c ← left
        let i ← right
        Interpreter.select c i) := by
  intro s blocks words rest m matched before
  have heap : shape.isHeap = true := by cases shape <;> first | rfl | cases found
  simp only [Generator.selection, List.append_assoc] at before
  refine leads_operands container selector heap matched before .stopped
    fun c i after later n matched before held index grows => ?_
  refine Leads.mono ?_ fun _ _ computed => Computed.grow computed grows
  generalize pointer : n.registers.get .esi = w at held
  cases held with
  | noText => exact .here (.stopped (fails_null matched before pointer))
  | noArray _ => exact .here (.stopped (fails_null matched before pointer))
  | int _ => cases heap
  | char _ => cases heap
  | text known placed =>
    obtain rfl : Shape.char = element := by simpa [Shape.element?] using found
    have has := hasLength_text valid matched.stored known placed
    rw [perform_select_text]
    refine leads_check valid matched before pointer index has (fun outside o fails => ?_)
      fun inside o matched before same kept => ?_
    · rw [if_neg outside]
      exact .here (.stopped fails)
    rw [if_pos inside, toNat_position inside.1]
    have esi : o.registers.get .esi = w := by rw [same, pointer]
    have eax : o.registers.get .eax = i.toUInt32 := by rw [same, index]
    refine leads_point .char matched before esi eax fun p matched before moved kept => ?_
    have bound := (position_iff has.small).mp inside
    obtain ⟨fine, allowed, read⟩ := matched.stored.character valid known placed bound
    refine leads_loadAt matched before ?_ fine allowed fun q matched before loaded =>
      leads_value matched before ?_
    · rw [moved, Shape.size, Nat.mul_one, UInt32.add_assoc, UInt32.add_comm _ 4, ← UInt32.add_assoc]
    · rw [loaded, elementWord, if_pos rfl, read]
      exact .char _
  | @array r cell block here there =>
    obtain rfl : cell.element = element := by simpa [Shape.element?] using found
    have has := hasLength_array valid matched.stored here there
    rw [perform_select_array here]
    refine leads_check valid matched before pointer index has (fun outside o fails => ?_)
      fun inside o matched before same kept => ?_
    · rw [if_neg outside]
      exact .here (.stopped fails)
    rw [if_pos inside, toNat_position inside.1]
    have esi : o.registers.get .esi = block.address := by rw [same, pointer]
    have eax : o.registers.get .eax = i.toUInt32 := by rw [same, index]
    refine leads_point cell.element matched before esi eax fun p matched before moved kept => ?_
    have holding := matched.stored.cell here there
    have bound := (position_iff has.small).mp inside
    obtain ⟨fine, allowed⟩ := matched.stored.element valid here there bound false
    refine leads_loadAt matched before (by rw [moved, elementAddress_eq]) fine allowed
      fun q matched before loaded => leads_value matched before ?_
    have chosen : cell.values[i.toUInt32.toNat]? =
        some (cell.values.getD i.toUInt32.toNat (.initial cell.element)) := by
      simp [List.getD_eq_getElem?_getD, List.getElem?_eq_getElem bound]
    rw [loaded]
    exact holding.element chosen

end Index

end Onepass.Simulation
