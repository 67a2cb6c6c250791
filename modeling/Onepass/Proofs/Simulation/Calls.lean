import Onepass.Proofs.Simulation.Arithmetic

/-! Calls of library routines. Where calls are aligned, the stack pointer is saved in a register and
rounded down before the arguments are pushed; afterwards it is what it was. Only the stack below it
has changed. -/
namespace Onepass.Simulation

open Assembly (Code)
open Interpreter (Value State Eval Cell)
open Machine

/-- Whether memory changed at most on the stack below an address. -/
structure Untouched (top : Nat) (memory changed : Memory) : Prop where
  low : Memory.Same 0 heapLimit memory changed
  high : Memory.Same top memorySize memory changed

theorem Untouched.refl (top : Nat) (memory : Memory) : Untouched top memory memory :=
  ⟨.refl _ _ _, .refl _ _ _⟩

theorem Untouched.write {top : Nat} {memory changed : Memory} {a : Word}
    (untouched : Untouched top memory changed) (low : heapLimit ≤ a.toNat)
    (high : a.toNat + 4 ≤ top) (small : top ≤ memorySize) (v : Word) :
    Untouched top memory (changed.writeWord a v) := by
  simp only [memorySize] at small
  exact ⟨untouched.low.trans (Memory.same_writeWord v (by omega) (.inr low)),
    untouched.high.trans (Memory.same_writeWord v (by omega) (.inl high))⟩

/-- The registers after the stack was aligned for a call. -/
def alignedFor (platform : Platform) (count : Nat) (r : Registers) : Registers :=
  if platform.alignsCalls then
    (r.set .edi r.esp).set .esp
      ((r.esp &&& Word.ofInt (-16)) - (Codegen.argumentPadding count).toUInt32)
  else r

/-- The instruction that drops the arguments of a call. -/
def release (platform : Platform) (count : Nat) : Assembly.Line :=
  if platform.alignsCalls then .instruction "movl" [Codegen.edi, Codegen.esp]
  else Codegen.dropWords count

section

variable {P : Setting} {s : State} {blocks later : Ledger} {words : List Word} {rest code : Code}
  {goal : Ledger → Machine → Prop} {m n : Machine} {r : Registers} {memory : Memory} {flags : Flags}

theorem alignedFor_get {platform : Platform} {count : Nat} {t : Register}
    (other : t ≠ .esp ∧ t ≠ .edi) : (alignedFor platform count r).get t = r.get t := by
  unfold alignedFor
  split
  · rw [Registers.get_set, if_neg other.1.symm, Registers.get_set, if_neg other.2.symm]
  · rfl

/-- Where calls are aligned the stack pointer is saved; elsewhere nothing changes. -/
theorem alignedFor_saved (platform : Platform) (count : Nat) (r : Registers) :
    (platform.alignsCalls = true → (alignedFor platform count r).edi = r.esp) ∧
      (platform.alignsCalls = false → alignedFor platform count r = r) := by
  unfold alignedFor
  refine ⟨fun aligns => ?_, fun aligns => ?_⟩
  · rw [if_pos aligns]
    rfl
  · rw [if_neg (by simp [aligns])]

theorem toNat_mask (w : Word) : (w &&& Word.ofInt (-16)).toNat = w.toNat / 16 * 16 := by
  have mask : Word.ofInt (-16) = ~~~15 := by decide
  rw [mask]
  exact Word.toNat_and_not 4 rfl w

/-- Where calls are aligned, the stack pointer is rounded down and leaves room for padding. -/
theorem toNat_alignedFor {platform : Platform} (count : Nat) (low : heapLimit ≤ r.esp.toNat)
    (aligns : platform.alignsCalls = true) :
    (alignedFor platform count r).esp.toNat + Codegen.argumentPadding count =
      r.esp.toNat / 16 * 16 := by
  have padding : Codegen.argumentPadding count < 16 := Nat.mod_lt _ (by decide)
  have small : (Codegen.argumentPadding count).toUInt32.toNat = Codegen.argumentPadding count :=
    Word.toNat_natCast (by omega)
  have mask := toNat_mask r.esp
  simp only [heapLimit, memorySize, stackSize] at low
  rw [alignedFor, if_pos aligns]
  change ((r.esp &&& Word.ofInt (-16)) - (Codegen.argumentPadding count).toUInt32).toNat + _ = _
  rw [Word.toNat_sub_of_le (by omega)]
  omega

/-- Aligning moves the stack pointer down. -/
theorem toNat_alignedFor_le (platform : Platform) (count : Nat)
    (low : heapLimit ≤ r.esp.toNat) :
    (alignedFor platform count r).esp.toNat ≤ r.esp.toNat := by
  cases aligns : platform.alignsCalls with
  | false => rw [(alignedFor_saved platform count r).2 aligns]
  | true =>
    have place := toNat_alignedFor count low aligns
    omega

/-- The stack is aligned for a call. -/
theorem At.align (count : Nat)
    (here : At P blocks m (Codegen.alignCall P.platform count ++ rest) r memory flags n)
    (onward : ∀ flags o, At P blocks m rest (alignedFor P.platform count r) memory flags o →
      Leads P.Watch goal blocks o) : Leads P.Watch goal blocks n := by
  unfold alignedFor at onward
  unfold Codegen.alignCall at here
  cases aligns : P.platform.alignsCalls with
  | false =>
    simp only [aligns, Bool.false_eq_true, if_false, List.nil_append] at here onward
    exact onward _ n here
  | true =>
    simp only [aligns, if_true, List.cons_append, List.nil_append] at here onward
    refine here.movl rfl rfl (readable_register .esp) (writable_register .edi _) fun o there => ?_
    refine there.arithmetic rfl rfl rfl rfl (readable_constant (-16)) (readable_register .esp)
      (writable_register .esp _) fun o there => ?_
    by_cases none : Codegen.argumentPadding count = 0
    · rw [if_pos none, List.nil_append] at there
      rw [none] at onward
      have same : ((r.esp &&& Word.ofInt (-16)) - Nat.toUInt32 0) = r.esp &&& Word.ofInt (-16) :=
        UInt32.sub_zero _
      rw [same] at onward
      exact onward _ o there
    · rw [if_neg none, List.singleton_append] at there
      have reads : Readable P blocks
          ((r.set .edi r.esp).set .esp (r.esp &&& Word.ofInt (-16))) memory
          (.immediate (Int32.ofInt (Codegen.wrap (Codegen.argumentPadding count : Nat))))
          (Codegen.argumentPadding count).toUInt32 :=
        Word.ofInt_natCast (Codegen.argumentPadding count) ▸ readable_constant _
      exact there.arithmetic rfl rfl rfl rfl reads (readable_register .esp)
        (writable_register .esp _) fun o there => onward _ o there

/-- After a call the stack pointer is what it was. -/
theorem At.release {top : Word} (count : Nat)
    (here : At P blocks m (release P.platform count :: rest) r memory flags n)
    (saved : P.platform.alignsCalls = true → r.edi = top)
    (pushed : P.platform.alignsCalls = false → r.esp + (count * wordSize).toUInt32 = top)
    (onward : ∀ flags o, At P blocks m rest (r.set .esp top) memory flags o →
      Leads P.Watch goal blocks o) : Leads P.Watch goal blocks n := by
  unfold Simulation.release at here
  cases aligns : P.platform.alignsCalls with
  | false =>
    simp only [aligns, Bool.false_eq_true, if_false] at here
    refine here.drop count fun flags o there => onward flags o ?_
    rwa [pushed aligns] at there
  | true =>
    simp only [aligns, if_true] at here
    refine here.movl rfl rfl (readable_register .edi) (writable_register .esp _) fun o there =>
      onward flags o ?_
    have top : r.get .edi = top := saved aligns
    rwa [top] at there

/-- Whether the stack is aligned for a call with a number of arguments, and these are pushed, the
last one first. -/
structure Prepared (platform : Platform) (count : Nat) (m : Machine) (values : List Word)
    (r : Registers) (memory : Memory) : Prop where
  low : heapLimit ≤ r.esp.toNat
  high : r.esp.toNat + 4 * values.length ≤ m.registers.esp.toNat
  untouched : Untouched m.registers.esp.toNat m.memory memory
  value : ∀ {i : Nat} {v : Word}, values[i]? = some v →
    memory.readWord (r.esp + (4 * i).toUInt32) = v
  saved : platform.alignsCalls = true → r.edi = m.registers.esp
  level : platform.alignsCalls = false →
    r.esp + (values.length * wordSize).toUInt32 = m.registers.esp
  rounded : platform.alignsCalls = true →
    (r.esp.toNat + 4 * values.length + Codegen.argumentPadding count) % 16 = 0
  other : ∀ {t : Register}, t ≠ .esp → t ≠ .edi → r.get t = m.registers.get t

/-- The stack is aligned and no argument is pushed yet. -/
theorem At.prepare (count : Nat) (ready : Ready P blocks m)
    (before : Before P (Codegen.alignCall P.platform count ++ rest) m)
    (onward : ∀ r memory flags o, At P blocks m rest r memory flags o →
      Prepared P.platform count m [] r memory → Leads P.Watch goal blocks o) :
    Leads P.Watch goal blocks m := by
  refine (At.start ready before).align count fun _ o there => onward _ _ _ o there ?_
  obtain ⟨saved, level⟩ := alignedFor_saved P.platform count m.registers
  refine ⟨there.inside.1, ?_, .refl _ _, fun found => by simp at found, saved, fun aligns => ?_,
    fun aligns => ?_, fun one two => alignedFor_get ⟨one, two⟩⟩
  · exact toNat_alignedFor_le P.platform count ready.inside.1
  · rw [level aligns]
    exact UInt32.add_zero _
  · rw [List.length_nil, Nat.mul_zero, Nat.add_zero, toNat_alignedFor count ready.inside.1 aligns]
    exact Nat.mul_mod_left _ _

/-- An argument is pushed. -/
theorem At.argument {count : Nat} {values : List Word} {a : Assembly.Operand} {x : Operand} {v : Word}
    (here : At P blocks m (.instruction "pushl" [a] :: rest) r memory flags n)
    (prepared : Prepared P.platform count m values r memory) (closed : blocks.Sealed)
    (small : m.registers.esp.toNat ≤ memorySize) (source : P.layout.operand a = .ok x)
    (reads : Readable P blocks r memory x v) (quiet : x.address? n = none)
    (onward : ∀ r memory o, At P blocks m rest r memory flags o →
      Prepared P.platform count m (v :: values) r memory → Leads P.Watch goal blocks o) :
    Leads P.Watch goal blocks n := by
  refine here.pushl closed source reads quiet fun o there => onward _ _ o there ?_
  have four : (4 : Word).toNat = 4 := rfl
  have low := prepared.low
  have high := prepared.high
  have below : heapLimit ≤ (r.esp - 4).toNat := there.inside.1
  simp only [heapLimit, memorySize, stackSize] at low small
  have next : (r.esp - 4).toNat = r.esp.toNat - 4 := Word.toNat_sub_of_le (by omega)
  refine ⟨below, ?_, ?_, fun {i w} found => ?_, prepared.saved, fun aligns => ?_,
    fun aligns => ?_, fun one two => ?_⟩
  · change (r.esp - 4).toNat + 4 * (values.length + 1) ≤ _
    omega
  · exact prepared.untouched.write below (by omega) (by simp only [memorySize]; omega) v
  · change (memory.writeWord (r.esp - 4) v).readWord (r.esp - 4 + (4 * i).toUInt32) = w
    cases i with
    | zero =>
      obtain rfl : v = w := by simpa using found
      have written : (memory.writeWord (r.esp - 4) v).readWord (r.esp - 4) = v :=
        Memory.readWord_writeWord v (by omega)
      simpa using written
    | succ i =>
      have found : values[i]? = some w := by simpa using found
      have bound := (List.getElem?_eq_some_iff.mp found).1
      have address : r.esp - 4 + (4 * (i + 1)).toUInt32 = r.esp + (4 * i).toUInt32 := by
        have split : (4 * (i + 1)).toUInt32 = 4 + (4 * i).toUInt32 := by
          simp [Nat.mul_add, UInt32.add_comm]
        rw [split, ← UInt32.add_assoc, UInt32.sub_add_cancel]
      have offset : (4 * i).toUInt32.toNat = 4 * i := Word.toNat_natCast (by omega)
      have place : (r.esp + (4 * i).toUInt32).toNat = r.esp.toNat + 4 * i := by
        rw [Word.toNat_add_of_lt (by omega), offset]
      have same : Memory.Same r.esp.toNat memorySize memory (memory.writeWord (r.esp - 4) v) :=
        Memory.same_writeWord v (by omega) (by omega)
      rw [address, same.readWord (by omega) (by simp only [memorySize]; omega) (by omega)]
      exact prepared.value found
  · have split : ((values.length + 1) * wordSize).toUInt32 =
        4 + (values.length * wordSize).toUInt32 := by
      simp [Nat.add_mul, wordSize, UInt32.add_comm]
    change r.esp - 4 + ((values.length + 1) * wordSize).toUInt32 = _
    rw [split, ← UInt32.add_assoc, UInt32.sub_add_cancel]
    exact prepared.level aligns
  · have rounded := prepared.rounded aligns
    change ((r.esp - 4).toNat + 4 * (values.length + 1) + _) % 16 = 0
    omega
  · rw [Registers.get_set, if_neg one.symm]
    exact prepared.other one two

section

variable {count : Nat} {values : List Word}

/-- The stack pointer is a multiple of 16 once all arguments are pushed. -/
theorem Prepared.aligned (prepared : Prepared P.platform count m values r memory)
    (all : values.length = count) (aligns : P.platform.alignsCalls = true) :
    r.esp.toNat % 16 = 0 := by
  have rounded := prepared.rounded aligns
  rw [all, Codegen.argumentPadding, wordSize] at rounded
  omega

/-- An argument of a call is read from the stack. -/
theorem Prepared.argument (i : Nat) {v : Word} (prepared : Prepared P.platform count m values r memory)
    (here : At P blocks m code r memory flags n) (small : m.registers.esp.toNat ≤ memorySize)
    (found : values[i]? = some v) :
    Routine.argument n i = .ok v ∧ n.memory.readWord (Routine.argumentAddress n i) = v ∧
      ∀ constants, Permitted constants blocks n (Routine.argumentAccess n i) := by
  have bound := (List.getElem?_eq_some_iff.mp found).1
  have low := prepared.low
  have high := prepared.high
  simp only [heapLimit, memorySize, stackSize] at low small
  have offset : (4 * i).toUInt32.toNat = 4 * i := Word.toNat_natCast (by omega)
  have top : r.esp = n.registers.esp := by rw [here.registers]
  have place : (n.registers.esp + (4 * i).toUInt32).toNat = r.esp.toNat + 4 * i := by
    rw [← top, Word.toNat_add_of_lt (by omega), offset]
  have read : n.memory.readWord (n.registers.esp + (4 * i).toUInt32) = v := by
    rw [here.memory, ← top]
    exact prepared.value found
  refine ⟨?_, read, fun constants => permitted_stack here.ready.inside ?_ ?_⟩
  · rw [Routine.argument, readWord_eq, read]
    exact accessible_stack (by simp only [heapLimit, memorySize, stackSize]; omega)
      (by simp only [memorySize]; omega)
  · change n.registers.esp.toNat ≤ (n.registers.esp + (4 * i).toUInt32).toNat
    rw [place, top]
    omega
  · change (n.registers.esp + (4 * i).toUInt32).toNat + 4 ≤ memorySize
    simp only [memorySize]
    omega

/-- After a call the arguments are dropped. -/
theorem At.dropArguments {origin : Machine} {result : Word}
    (prepared : Prepared P.platform count m values r memory)
    (here : At P later origin (Simulation.release P.platform values.length :: rest) (r.set .eax result) memory
      flags n)
    (onward : ∀ flags o, At P later origin rest ((r.set .eax result).set .esp m.registers.esp)
      memory flags o → Leads P.Watch goal later o) : Leads P.Watch goal later n :=
  here.release values.length prepared.saved prepared.level onward

theorem Prepared.stored {mark : Word} (prepared : Prepared P.platform count m values r memory)
    (matched : Matches P s blocks words m) (stored : Stored P s blocks m.memory mark) :
    Stored P s blocks memory mark := by
  obtain ⟨_, place, _⟩ := matched.top
  exact stored.same matched.fits prepared.untouched.low
    (prepared.untouched.high.mono (by omega) (le_refl _))

theorem Prepared.stack (prepared : Prepared P.platform count m values r memory)
    (matched : Matches P s blocks words m) : Stacked P words memory m.registers.esp := by
  obtain ⟨_, _, whole⟩ := matched.top
  exact matched.stack.same (prepared.untouched.high.mono (le_refl _) (by omega))

end

theorem routine_symbol (platform : Platform) (routine : Routine) :
    Routine.ofSymbol? (platform.symbol routine.name) = some routine := by
  cases platform <;> cases routine <;> rfl

/-- The routines that compiled programs call. -/
theorem label_routine (valid : P.Valid) {routine : Routine}
    (used : routine ∈ [Routine.printf, .malloc, .abort]) :
    P.layout.label? (P.platform.symbol routine.name) = none :=
  valid.routine routine.name (List.mem_map_of_mem used)

/-- A call of a routine is fetched; what it does and accesses is what the routine does. -/
theorem At.called (routine : Routine) (valid : P.Valid)
    (used : routine ∈ [Routine.printf, .malloc, .abort])
    (here : At P blocks m (.instruction "call"
      [Codegen.destination (P.platform.symbol routine.name)] :: rest) r memory flags n) :
    ∃ i : Instr, n.fetch? = some i ∧ i.mnemonic = .call ∧ n.routine? = some routine ∧
      i.accesses n = routine.accesses n ∧
      perform (Machine.execute i) n.next = perform routine.run n.next := by
  have target : P.layout.target "call" (Codegen.destination (P.platform.symbol routine.name)) =
      .ok (.target (P.platform.symbol routine.name) (-1)) := by
    simp only [Assembly.Layout.target, Codegen.destination, label_routine valid used]
    rfl
  obtain ⟨line, fetched⟩ := here.fetched (instruction_branch rfl rfl rfl target)
  have known := routine_symbol P.platform routine
  have outside : ((-1 : Int) < 0) := by decide
  refine ⟨_, fetched, rfl, ?_, ?_, ?_⟩
  · have running : ¬ n.halted = true := by simp [here.ready.running]
    simp only [routine?, if_neg running, fetched, Operand.target, if_pos outside, known]
  · simp only [Instr.accesses, Destination.accesses, Operand.target, List.getElem?_cons_zero,
      Option.map_some, Option.getD_some, if_pos outside, known]
  · have opened : perform (Machine.execute ⟨.call,
        [.target (P.platform.symbol routine.name) (-1)], line⟩) n.next =
        perform (Routine.call (P.platform.symbol routine.name)) n.next := rfl
    rw [opened, Routine.call, known]

/-- A routine that succeeds; it may move the end of the heap, write output and return a result. -/
theorem At.call (routine : Routine) {after : Registers} {mark : Word} {sink : Sink} (valid : P.Valid)
    (used : routine ∈ [Routine.printf, .malloc, .abort])
    (here : At P blocks m (.instruction "call"
      [Codegen.destination (P.platform.symbol routine.name)] :: rest) r memory flags n)
    (aligned : P.platform.alignsCalls = true → r.esp.toNat % 16 = 0)
    (allowed : ∀ a ∈ routine.accesses n, Permitted P.constants blocks n a)
    (done : perform routine.run n.next =
      (.ok (), { n.next with registers := after, heap := mark, sink }))
    (tracked : n.routine? = some routine → n.step.2.registers = after → blocks.track n = later)
    (tidy : later.Tidy P.dataEnd heapLimit)
    (onward : ∀ o : Machine, o.heap = mark → o.sink = sink →
      At P later o rest after memory flags o → Leads P.Watch goal later o) :
    Leads P.Watch goal blocks n := by
  obtain ⟨i, fetched, call, library, same, opened⟩ := here.called routine valid used
  have ready := here.ready
  have stepped : n.step = (.ok (), { n.next with registers := after, heap := mark, sink }) := by
    rw [step_eq ready.running fetched, opened, done]
  have watched := here.watch fetched (by rw [call]; decide) (fun _ => aligned)
    (safe_of_allowed fetched (by rw [same]; exact allowed))
  refine .next ⟨ready.running, watched, stepped, tracked library (by rw [stepped])⟩
    (.inside fun inside => onward _ rfl rfl ?_)
  exact ⟨⟨ready.text, ready.running, ready.status, inside, tidy⟩, here.before.next rfl, rfl,
    here.memory, here.flags, rfl, rfl⟩

/-- The routine for failed bounds checks aborts the program. -/
theorem leads_abort (valid : P.Valid) (matched : Matches P s blocks words m)
    (here : At P blocks m ((Codegen.Builder.boundsRoutine P.platform).drop 1) r memory flags n)
    (onward : ∀ o, Fails P s .bounds blocks o → Leads P.Watch goal blocks o) :
    Leads P.Watch goal blocks n := by
  have fails {o : Machine} {r : Registers} {flags : Flags}
      (there : At P blocks m [.instruction "call"
        [Codegen.destination (P.platform.symbol Routine.abort.name)]] r memory flags o)
      (aligned : P.platform.alignsCalls = true → r.esp.toNat % 16 = 0) :
      Fails P s .bounds blocks o := by
    obtain ⟨i, fetched, call, _, same, opened⟩ := there.called .abort valid (by decide)
    have stepped : o.step = (.error ⟨.aborted, none⟩,
        { o.next with halted := true, status := Routine.abortStatus }) := by
      rw [step_eq there.ready.running fetched, opened]
      rfl
    have quiet : Routine.accesses o .abort = [] := rfl
    exact ⟨there.ready.running,
      there.watch fetched (by rw [call]; decide) (fun _ => aligned)
        (safe_of_allowed fetched (by simp [same, quiet])),
      by rw [there.sink]; exact matched.output, _, _, stepped, rfl, .bounds⟩
  cases aligns : P.platform.alignsCalls with
  | false =>
    simp only [Codegen.Builder.boundsRoutine, aligns, Bool.false_eq_true, if_false,
      List.singleton_append, List.append_nil, List.drop_one, List.tail_cons] at here
    exact onward n (fails here fun other => by rw [aligns] at other; cases other)
  | true =>
    simp only [Codegen.Builder.boundsRoutine, aligns, if_true, List.cons_append, List.drop_one,
      List.tail_cons] at here
    exact here.arithmetic rfl rfl rfl rfl (readable_constant (-16)) (readable_register .esp)
      (writable_register .esp _) fun o there => onward o (fails there fun _ => by
        change (r.esp &&& Word.ofInt (-16)).toNat % 16 = 0
        rw [toNat_mask]
        exact Nat.mul_mod_left _ _)

end

end Onepass.Simulation
