import Onepass.Proofs.Machine.Allocator
import Onepass.Proofs.Simulation.Selection

/-! Arrays: allocating one and setting its header, storing an element, and filling an array from the
elements of a literal while the pointer to it waits on the stack. -/
namespace Onepass.Simulation

open Assembly (Code)
open Interpreter (Value State Eval Cell arraySize)
open Machine

section Stores

variable {P : Setting} {s : State} {blocks : Ledger} {words : List Word} {rest : Code}
  {goal : Ledger → Machine → Prop} {m : Machine} {r place : Nat} {cell : Cell} {block : Block}
  {v : Value}

theorem storeAt_eq {element : Shape} (other : element ≠ .char) (offset : Int) :
    Codegen.storeAt (.ofShape element) "edx" offset =
      [.instruction "movl" [resultOperand element, Codegen.based offset "edx"]] := by
  cases element with
  | char => exact absurd rfl other
  | _ => rfl

/-- An element is stored where a register points. -/
theorem leads_storeAt {offset : Int} (valid : P.Valid) (matched : Matches P s blocks words m)
    (before : Before P (Codegen.storeAt (.ofShape cell.element) "edx" offset ++ rest) m)
    (here : s.heap[r]? = some cell) (there : blocks[r]? = some block)
    (bound : place < cell.values.length)
    (address : m.registers.get .edx + .ofInt offset = elementAddress cell.element block place)
    (held : Represents P s.heap blocks cell.element v
      (m.registers.get (resultRegister cell.element)))
    (onward : ∀ n, Matches P { s with heap := changed s.heap r place v } blocks words n →
      Before P rest n → Leads P.Watch goal blocks n) : Leads P.Watch goal blocks m := by
  obtain ⟨fine, allowed⟩ := matched.stored.element valid here there bound true
  have closed := matched.stored.sealed
  have stored := matched.stored.put matched.fits here there bound held
  obtain ⟨low, high⟩ := matched.stored.block_within (List.mem_of_getElem? there)
  have limit : heapLimit ≤ memorySize := by decide
  obtain ⟨start, within⟩ :=
    toNat_elementAddress (matched.stored.cell here there).size bound (by omega)
  have inside := matched.ready.inside.1
  have stack : Stacked P words (writeElement cell.element m.memory
      (elementAddress cell.element block place) (m.registers.get (resultRegister cell.element)))
      m.registers.esp :=
    matched.stack.same (same_writeElement (by omega) (by omega))
  rw [← ofInt_wrap] at address
  by_cases char : cell.element = .char
  · have one : cell.element.size = 1 := by rw [char]; rfl
    rw [char] at before
    rw [one] at fine allowed
    simp only [writeElement, if_pos char] at stored stack
    have register : resultRegister cell.element = .eax := by rw [char]; rfl
    rw [register] at stored stack
    exact (At.start matched.ready before).movb closed rfl address fine (allowed m) fun n there =>
      onward n (there.matches matched rfl stack stored rfl) there.before
  · rw [storeAt_eq char] at before
    rw [size_of_ne_char char] at fine allowed
    simp only [writeElement, if_neg char] at stored stack
    exact (At.start matched.ready before).movl (operand_result _) rfl (readable_register _)
      (writable_at _ address fine (fun m _ _ => allowed m) fun b member => .inl (closed b member))
      fun n there => onward n (there.matches matched rfl stack stored rfl) there.before

/-- An element of a literal is stored into the array whose pointer is on top of the stack. -/
theorem leads_storeElement (valid : P.Valid)
    (matched : Matches P s blocks (block.address :: words) m)
    (before : Before P (Generator.storeElement cell.element place ++ rest) m)
    (here : s.heap[r]? = some cell) (there : blocks[r]? = some block)
    (bound : place < cell.values.length)
    (held : Represents P s.heap blocks cell.element v
      (m.registers.get (resultRegister cell.element)))
    (onward : ∀ n, Matches P { s with heap := changed s.heap r place v } blocks
      (block.address :: words) n → Before P rest n → Leads P.Watch goal blocks n) :
    Leads P.Watch goal blocks m := by
  rw [Generator.storeElement, List.append_assoc] at before
  refine leads_load matched before rfl rfl (readable_top matched) (by decide)
    fun n matched before loaded => leads_storeAt valid matched before here there bound ?_ ?_ onward
  · rw [loaded, Registers.get_set, if_pos rfl, Word.ofInt_natCast]
    rfl
  · rw [loaded, Registers.get_set, if_neg (resultRegister_ne_edx _).symm]
    exact held

end Stores

section Allocation

variable {P : Setting} {s : State} {blocks : Ledger} {words : List Word} {rest : Code}
  {goal : Ledger → Machine → Prop} {m n origin : Machine} {r : Registers} {memory : Memory}
  {flags : Flags} {element : Shape} {count : Nat}

/-- The header of a block that was just given out is set. -/
theorem At.setLength {h : Word} {size : Nat} (closed : blocks.Sealed)
    (here : At P (blocks ++ [⟨h, size, none⟩]) origin (Codegen.setLength count ++ rest) r memory
      flags n)
    (pointer : r.get .esi = h) (fine : accessible h 4 = true) (room : h.toNat + 4 ≤ memorySize)
    (onward : ∀ o, At P (blocks ++ [⟨h, size, some count.toUInt32⟩]) origin rest r
      (memory.writeWord h count.toUInt32) flags o →
      Leads P.Watch goal (blocks ++ [⟨h, size, some count.toUInt32⟩]) o) :
    Leads P.Watch goal (blocks ++ [⟨h, size, none⟩]) n := by
  have constant : P.layout.operand (Codegen.constant count) =
      .ok (.immediate (Int32.ofInt (Codegen.wrap count))) := rfl
  have target : P.layout.operand (.based none "esi") = .ok (.at 0 .esi) := rfl
  obtain ⟨line, fetched⟩ := here.fetched (instruction_two rfl rfl rfl constant target)
  have ready := here.ready
  have address : n.registers.get .esi + (0 : Int32).toUInt32 = h := by
    rw [here.registers, pointer]
    exact UInt32.add_zero h
  have value : (Int32.ofInt (Codegen.wrap count)).toUInt32 = count.toUInt32 :=
    (ofInt_wrap _).trans (Word.ofInt_natCast _)
  have only : Instr.accesses ⟨.movl, [.immediate (Int32.ofInt (Codegen.wrap count)), .at 0 .esi],
      line⟩ n = [⟨h, 4, true⟩] := by
    have one : (Operand.at 0 .esi).accesses n 4 true = [⟨h, 4, true⟩] := by
      simp [Operand.accesses, Operand.address?, Operand.memory, register?, ← address]
    exact one
  have written : perform (Exec.write (.at 0 .esi) (Int32.ofInt (Codegen.wrap count)).toUInt32) n.next =
      (.ok (), { n.next with memory := n.memory.writeWord h count.toUInt32 }) := by
    rw [value]
    exact write_memory address fine
  have stepped : n.step = (.ok (),
      { n.next with memory := n.memory.writeWord h count.toUInt32 }) := by
    rw [step_eq ready.running fetched, execute_movl read_immediate written]
  have made : n.accesses = [⟨h, 4, true⟩] := by
    simp [accesses, ready.running, fetched, only, upToFault]
  have stays : Mnemonic.movl ≠ .ret := by decide
  have plain : Mnemonic.movl ≠ .call := by decide
  have watched := here.watch fetched stays (fun calls => absurd calls plain)
    (safe_of_allowed fetched (by
      rw [only]
      intro a member
      obtain rfl := List.mem_singleton.mp member
      exact .header ⟨h, size, none⟩ (by simp) rfl rfl fun _ => rfl))
  have tracked : Ledger.track (blocks ++ [⟨h, size, none⟩]) n =
      blocks ++ [⟨h, size, some count.toUInt32⟩] := by
    have sealed : blocks.map (Block.after n) = blocks :=
      (List.map_congr_left fun b member => Block.after_of_sealed (closed b member)).trans
        (List.map_id _)
    have set : Block.after n ⟨h, size, none⟩ = ⟨h, size, some count.toUInt32⟩ := by
      simp only [memorySize] at room
      simp [Block.after, made, stepped, Memory.readWord_writeWord count.toUInt32
        (show h.toNat + 4 ≤ 0x100000000 by omega)]
    have unallocated : n.allocation? = none := by
      simp [allocation?, routine?_of_plain fetched plain]
    simp only [Ledger.track, List.map_append, sealed, List.map_cons, List.map_nil, set,
      unallocated]
    simp
  have tidy : Ledger.Tidy P.dataEnd heapLimit (blocks ++ [⟨h, size, some count.toUInt32⟩]) :=
    ready.tidy.setLast (some count.toUInt32)
  refine .next ⟨ready.running, watched, stepped, tracked⟩ (.inside fun inside => onward _ ?_)
  exact ⟨⟨ready.text, ready.running, ready.status, inside, tidy⟩, here.before.next rfl,
    here.registers, congrArg (·.writeWord h count.toUInt32) here.memory, here.flags, here.heap, here.sink⟩

/-- The header of an array that was not allocated cannot be set. -/
theorem At.setLength_fault (output : m.sink.written = P.written ++ s.output)
    (here : At P blocks m (Codegen.setLength count ++ rest) r memory flags n)
    (pointer : r.get .esi = 0) : Fails P s .outOfMemory blocks n := by
  have address : n.registers.get .esi + (0 : Int32).toUInt32 = 0 := by
    rw [here.registers, pointer]
    rfl
  have constant : P.layout.operand (Codegen.constant count) =
      .ok (.immediate (Int32.ofInt (Codegen.wrap count))) := rfl
  have target : P.layout.operand (.based none "esi") = .ok (.at 0 .esi) := rfl
  have done (line : Int) : perform (Machine.execute ⟨.movl,
      [.immediate (Int32.ofInt (Codegen.wrap count)), .at 0 .esi], line⟩) n.next =
      (.error (.badAccess 4 0), n.next) :=
    execute_movl read_immediate (write_memory_fault address (by decide))
  obtain ⟨watched, i, stopped⟩ := here.fault (instruction_two rfl rfl rfl constant target)
    (by decide) (by decide) (by decide) (fun i fails line access member => by
      have only : access ∈ (Operand.at 0 .esi).accesses n 4 true := member
      rw [mem_accesses_at rfl address] at only
      subst only
      exact .null (by decide) i fails) done
  exact here.fails output watched stopped (.outOfMemory i)

theorem perform_allocate (element : Shape) (count : Nat) (s : State) :
    perform (Interpreter.allocate element count) s =
      if s.room < arraySize element count then (.error .outOfMemory, s)
      else (.ok s.heap.length, { s with
        heap := s.heap ++ [newCell element count]
        room := s.room - (arraySize element count + 7) / 8 * 8 }) := by
  simp only [Interpreter.allocate, perform_bind, perform_get]
  split <;> rfl

/-- An array is allocated and its length is set, unless there is no room. -/
theorem leads_allocation (valid : P.Valid) (matched : Matches P s blocks words m)
    (before : Before P (Generator.allocation P.platform element count ++ rest) m)
    (writable : element.isWritable = true) (small : arraySize element count < 0x100000000)
    (full : s.room < arraySize element count → ∀ n, Fails P s .outOfMemory blocks n →
      Leads P.Watch goal blocks n)
    (onward : arraySize element count ≤ s.room → ∀ n,
      Matches P { s with
        heap := s.heap ++ [newCell element count]
        room := s.room - (arraySize element count + 7) / 8 * 8 }
        (blocks ++ [newBlock element count m.heap]) words n →
      Before P rest n → n.registers.get .esi = m.heap →
      Leads P.Watch goal (blocks ++ [newBlock element count m.heap]) n) :
    Leads P.Watch goal blocks m := by
  simp only [Generator.allocation, Codegen.allocate, List.append_assoc, List.cons_append,
    List.nil_append] at before
  have closed := matched.stored.sealed
  have high := matched.ready.inside.2
  refine At.prepare 1 matched.ready before fun r memory _ o there prepared => ?_
  have amount : (Int32.ofInt (Codegen.wrap (Codegen.wrap (wordSize + count * element.size)))).toUInt32 =
      (arraySize element count).toUInt32 :=
    (ofInt_wrap _).trans ((ofInt_wrap _).trans (Word.ofInt_natCast (arraySize element count)))
  refine there.argument prepared closed high rfl (readable_immediate _) rfl
    fun r memory o there prepared => ?_
  rw [amount] at prepared
  generalize amounts : (arraySize element count).toUInt32 = size at prepared
  have bytes : size.toNat = arraySize element count := by
    rw [← amounts]
    exact Word.toNat_natCast small
  obtain ⟨given, argument, permitted⟩ := prepared.argument 0 there high rfl
  have allowed : ∀ a ∈ Routine.accesses o .malloc, Permitted P.constants blocks o a := by
    intro a member
    obtain rfl : a = Routine.argumentAccess o 0 := by simpa [Routine.accesses] using member
    exact permitted _
  have heap := there.heap
  have same := there.sink
  have room := matched.stored.room
  have stored := prepared.stored matched matched.stored
  have stack := prepared.stack matched
  have run := perform_malloc (m := o.next) given
  rw [show o.next.registers = r from there.registers, show o.next.heap = m.heap from heap, bytes]
    at run
  have base : r.get .ebp = m.registers.ebp := prepared.other (by decide) (by decide)
  by_cases enough : s.room < arraySize element count
  · rw [if_pos (by omega)] at run
    refine At.call .malloc valid (by decide) there (prepared.aligned rfl) allowed run
      (fun calls result => ?_) matched.ready.tidy fun p mark sink there => ?_
    · have eax : o.step.2.registers.eax = 0 := by rw [result]; rfl
      rw [Ledger.track_of_sealed closed, allocation?_eq calls eax rfl, if_pos rfl]
      simp
    refine At.dropArguments prepared there fun _ q there => ?_
    refine there.movl rfl rfl (readable_register .eax) (writable_register .esi _) fun q there => ?_
    have output : p.sink.written = P.written ++ s.output := by
      rw [sink]
      exact (congrArg Sink.written same).trans matched.output
    exact full enough q (At.setLength_fault output there rfl)
  · rw [if_neg (by omega)] at run
    have enough : arraySize element count ≤ s.room := by omega
    have start := matched.stored.low
    have above := valid.low
    have header : 4 ≤ arraySize element count := by simp [arraySize, wordSize]
    have some : m.heap ≠ 0 := by
      rintro zero
      rw [zero] at start
      exact absurd (le_trans above start) (by decide)
    have tidy : Ledger.Tidy P.dataEnd heapLimit
        (blocks ++ [⟨m.heap, arraySize element count, none⟩]) :=
      matched.stored.tidy.append start rfl (by change _ + arraySize element count ≤ _; omega) header
    refine At.call .malloc valid (by decide) there (prepared.aligned rfl) allowed run
      (fun calls result => ?_) tidy fun p mark sink there => ?_
    · have eax : o.step.2.registers.eax = m.heap := by rw [result]; rfl
      rw [Ledger.track_of_sealed closed, allocation?_eq calls eax (by rw [argument, bytes]),
        if_neg some]
      rfl
    refine At.dropArguments prepared there fun _ q there => ?_
    refine there.movl rfl rfl (readable_register .eax) (writable_register .esi _) fun q there => ?_
    have limit : heapLimit ≤ memorySize := by decide
    refine there.setLength closed rfl (accessible_of (by omega) (by omega)) (by omega)
      fun q there => onward enough q ⟨there.ready, ?_, ?_, ?_, ?_⟩ there.before
        (by rw [there.registers]; rfl)
    · rw [there.registers]
      exact base.trans matched.base
    · rw [there.registers, there.memory]
      have inside := matched.ready.inside.1
      exact stack.same (Memory.same_writeWord _ (by simp only [memorySize] at limit; omega)
        (.inl (by omega)))
    · rw [there.memory, there.heap, mark, ← amounts]
      exact stored.allocate matched.fits writable enough
    · rw [there.sink, sink]
      exact (congrArg Sink.written same).trans matched.output

end Allocation

section Literals

/-- What becomes of a machine that fills an array, with words on its stack. -/
inductive Filled (P : Setting) (s : State) (blocks : Ledger) (words : List Word) (rest : Code) :
    Except Interpreter.Stop Unit × State → Ledger → Machine → Prop where
  | done {after : State} {later : Ledger} {n : Machine} (matched : Matches P after later words n)
      (before : Before P rest n) (grows : Grows s.heap after.heap blocks later) :
      Filled P s blocks words rest (.ok (), after) later n
  | stopped {reason : Interpreter.Stop} {after : State} {later : Ledger} {n : Machine}
      (fails : Fails P after reason later n) :
      Filled P s blocks words rest (.error reason, after) later n

/-- Whether code fills some places of an array, whose pointer is on top of the stack. -/
def Fills (P : Setting) (code : Code) (element : Shape) (place count : Nat)
    (action : Nat → Eval Unit) : Prop :=
  ∀ ⦃s : State⦄ ⦃blocks : Ledger⦄ ⦃words : List Word⦄ ⦃rest : Code⦄ ⦃m : Machine⦄ ⦃r : Nat⦄
    ⦃cell : Cell⦄ ⦃block : Block⦄, s.heap[r]? = some cell → blocks[r]? = some block →
    cell.element = element → place + count ≤ cell.values.length →
    Matches P s blocks (block.address :: words) m → Before P (code ++ rest) m →
    Leads P.Watch (Filled P s blocks (block.address :: words) rest (perform (action r) s)) blocks m

variable {P : Setting} {code first others : Code} {element : Shape} {place count : Nat}

theorem fills_nil : Fills P [] element place 0 fun _ => pure () :=
  fun _ _ _ _ _ _ _ _ _ _ _ _ matched before => .here (.done matched before (.refl _ _))

/-- An element is computed and stored before the others. -/
theorem fills_cons {action : Eval Value} {fill : Nat → Eval Unit} (valid : P.Valid)
    (head : Computes P first element action) (tail : Fills P others element (place + 1) count fill) :
    Fills P (first ++ Generator.storeElement element place ++ others) element place (count + 1)
      (fun r => do
        let v ← action
        Interpreter.put r place v
        fill r) := by
  intro s blocks words rest m r cell block here there same bound matched before
  simp only [List.append_assoc] at before
  refine head.andThen matched before .stopped fun v after later n matched before held grows => ?_
  obtain ⟨cell, here, kind, length⟩ := grows.cell here
  obtain ⟨block, there, address⟩ := grows.block there
  rw [← kind] at same
  subst same
  rw [← address] at matched ⊢
  refine leads_storeElement valid matched before here there (by omega) held
    fun o matched before => ?_
  have new : (changed after.heap r place v)[r]? =
      some { cell with values := cell.values.set place v } := by simp [changed, here]
  have kept : ({ cell with values := cell.values.set place v } : Cell).element = cell.element := rfl
  refine (tail new there kept (by simp only [List.length_set]; omega) matched before).mono
    fun _ _ filled => ?_
  have more := grows.trans (grows_changed r place v)
  have stored : perform (do Interpreter.put r place v; fill r) after =
      perform (fill r) { after with heap := changed after.heap r place v } := rfl
  rw [stored]
  generalize perform (fill r) _ = outcome at filled
  cases filled with
  | done matched before again => exact .done matched before (more.trans again)
  | stopped fails => exact .stopped fails

variable (valid : P.Valid) (writable : element.isWritable = true)
  (small : arraySize element count < 0x100000000)

include valid writable small

theorem computes_emptyArray :
    Computes P (Generator.allocation P.platform element count) (.array element)
      (do return .array (some (← Interpreter.allocate element count))) := by
  intro s blocks words rest m matched before
  rw [perform_bind, perform_allocate]
  refine leads_allocation valid matched before writable small (fun full n fails => ?_)
    fun enough n matched before pointer => ?_
  · rw [if_pos full]
    exact .here (.stopped fails)
  · rw [if_neg (by omega)]
    have length := matched.stored.count
    simp only [List.length_append, List.length_singleton, Nat.add_right_cancel_iff] at length
    have here : (s.heap ++ [newCell element count])[s.heap.length]? =
        some (newCell element count) := by simp
    have there : (blocks ++ [newBlock element count m.heap])[s.heap.length]? =
        some (newBlock element count m.heap) := by
      rw [← length]
      simp
    refine .here (.value matched before ?_ (grows_append _ _))
    change Represents _ _ _ _ _ (n.registers.get .esi)
    rw [pointer]
    exact .array here there

/-- The elements of a literal are computed and stored into the array that was allocated first. -/
theorem computes_array {fill : Nat → Eval Unit} (fills : Fills P code element 0 count fill) :
    Computes P (Generator.allocation P.platform element count ++ Codegen.pushPointer ++ code ++
      Codegen.popPointer) (.array element) (do
        let r ← Interpreter.allocate element count
        fill r
        return .array (some r)) := by
  intro s blocks words rest m matched before
  simp only [List.append_assoc] at before
  rw [perform_bind, perform_allocate]
  refine leads_allocation valid matched before writable small (fun full n fails => ?_)
    fun enough n matched before pointer => ?_
  · rw [if_pos full]
    exact .here (.stopped fails)
  rw [if_neg (by omega)]
  dsimp only
  have length := matched.stored.count
  simp only [List.length_append, List.length_singleton, Nat.add_right_cancel_iff] at length
  have here : (s.heap ++ [newCell element count])[s.heap.length]? = some (newCell element count) := by
    simp
  have there : (blocks ++ [newBlock element count m.heap])[s.heap.length]? =
      some (newBlock element count m.heap) := by
    rw [← length]
    simp
  refine leads_push matched before rfl (readable_register .esi) rfl fun o matched before => ?_
  rw [pointer] at matched
  refine (fills here there rfl (by simp [newCell]) matched before).trans fun later p filled => ?_
  rw [perform_bind]
  generalize perform (fill s.heap.length) _ = outcome at filled
  cases filled with
  | stopped fails => exact .here (.stopped fails)
  | done matched before grows =>
    obtain ⟨cell, here, kind, _⟩ := grows.cell here
    obtain ⟨block, there, address⟩ := grows.block there
    refine leads_pop matched before rfl (by decide) fun q matched before loaded =>
      .here (.value matched before ?_ ((grows_append _ _).trans grows))
    change Represents _ _ _ _ _ (q.registers.get .esi)
    rw [loaded, Registers.get_set, if_pos rfl, ← address]
    have held := Represents.array (P := P) here there
    rwa [kind] at held

end Literals

end Onepass.Simulation
