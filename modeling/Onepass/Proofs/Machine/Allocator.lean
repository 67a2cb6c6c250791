import Onepass.Proofs.Machine.Ledger
import Onepass.Proofs.Machine.Robust

/-! The allocator. Its mark is where the next block starts, and only the allocator moves it: past the
block that it gives out. So the blocks of a run lie one after the other between the data and the
stack, whatever the program does. -/
namespace Onepass.Machine

/-- Whether an action leaves the mark of the allocator alone. -/
def KeepsMark {α : Type} (action : Exec α) : Prop := ∀ m, (perform action m).2.heap = m.heap

namespace KeepsMark

variable {α β : Type} {action : Exec α}

theorem bind {next : α → Exec β} (first : KeepsMark action) (later : ∀ v, KeepsMark (next v)) :
    KeepsMark (action >>= next) := by
  intro m
  have kept := first m
  rw [perform_bind]
  generalize perform action m = result at kept
  rcases result with ⟨_ | v, middle⟩
  · exact kept
  · exact (later v middle).trans kept

/-- An action that only looks. -/
theorem of_look (looks : ∀ m, ∃ result, perform action m = (result, m)) : KeepsMark action := by
  intro m
  obtain ⟨result, same⟩ := looks m
  rw [same]

theorem pure (v : α) : KeepsMark (Pure.pure v : Exec α) := of_look fun _ => ⟨_, rfl⟩

theorem throw (fault : Fault) : KeepsMark (MonadExcept.throw fault : Exec α) :=
  of_look fun _ => ⟨_, rfl⟩

theorem look (f : Machine → Except Fault α) : KeepsMark (Exec.look f) :=
  of_look fun _ => ⟨_, perform_look⟩

theorem get {next : Machine → Exec β} (later : ∀ m, KeepsMark (next m)) :
    KeepsMark (MonadState.get >>= next) :=
  (of_look fun _ => ⟨_, rfl⟩).bind later

theorem getRegister (r : Register) : KeepsMark (Exec.getRegister r) := fun _ => rfl

theorem setRegister (r : Register) (value : Word) : KeepsMark (Exec.setRegister r value) :=
  fun _ => rfl

theorem setFlags (flags : Flags) : KeepsMark (Exec.setFlags flags) := fun _ => rfl

theorem setPc (pc : Int) : KeepsMark (Exec.setPc pc) := fun _ => rfl

theorem halt (status : Int) : KeepsMark (Exec.halt status) := fun _ => rfl

/-- A change of memory. -/
theorem change {f : Machine → Except Fault Machine}
    (bytes : ∀ m after, f m = .ok after → ∃ memory, after = { m with memory }) :
    KeepsMark (Exec.change f) := by
  intro m
  rw [perform_change]
  cases done : f m with
  | error fault => rfl
  | ok after =>
    obtain ⟨memory, rfl⟩ := bytes m after done
    rfl

theorem writeWord (a value : Word) : KeepsMark (Exec.change (·.writeWord a value)) :=
  change fun m after done => by
    obtain ⟨_, _, done⟩ := bind_eq_ok.mp done
    cases done
    exact ⟨_, rfl⟩

theorem writeByte (a : Word) (value : UInt8) :
    KeepsMark (Exec.change (Machine.writeByte · a value)) :=
  change fun m after done => by
    obtain ⟨_, _, done⟩ := bind_eq_ok.mp done
    cases done
    exact ⟨_, rfl⟩

theorem operand (i : Instr) (index : Nat) : KeepsMark (Exec.operand i index) :=
  of_look fun m => by
    obtain ⟨result, looked, _⟩ := perform_operand (m := m) i index
    exact ⟨result, looked⟩

theorem address (o : Operand) : KeepsMark (Exec.address o) :=
  of_look fun m => by
    obtain ⟨result, looked, _⟩ := perform_address (m := m) o
    exact ⟨result, looked⟩

theorem read (o : Operand) : KeepsMark (Exec.read o) :=
  of_look fun m => by
    obtain ⟨result, looked, _⟩ := perform_read (m := m) o
    exact ⟨result, looked⟩

theorem readByte (o : Operand) : KeepsMark (Exec.readByte o) :=
  of_look fun m => by
    obtain ⟨result, looked, _⟩ := perform_readByte (m := m) o
    exact ⟨result, looked⟩

theorem writeRegister (name : RegisterName) (value : Word) :
    KeepsMark (Exec.writeRegister name value) := by
  cases name with
  | full r => exact setRegister r value
  | al => exact (getRegister _).bind fun _ => setRegister _ _
  | unknown name => exact throw _

theorem write (o : Operand) (value : Word) : KeepsMark (Exec.write o value) := by
  rcases o with ⟨_ | name | _ | _, _⟩
  · exact (address _).bind fun a => writeWord a value
  · exact writeRegister name value
  · exact (address _).bind fun a => writeWord a value
  · exact (address _).bind fun a => writeWord a value

theorem writeOperandByte (o : Operand) (value : UInt8) : KeepsMark (Exec.writeByte o value) := by
  rcases o with ⟨_ | name | _ | _, _⟩
  · exact (address _).bind fun a => writeByte a value
  · exact writeRegister name _
  · exact (address _).bind fun a => writeByte a value
  · exact (address _).bind fun a => writeByte a value

theorem push (value : Word) : KeepsMark (Exec.push value) :=
  (getRegister _).bind fun _ => (setRegister _ _).bind fun _ => writeWord _ value

theorem pop : KeepsMark Exec.pop :=
  (getRegister _).bind fun _ => (look _).bind fun _ => (setRegister _ _).bind fun _ => pure _

theorem divideWide (divisor : Word) : KeepsMark (divideWide divisor) := by
  intro m
  rw [perform_divideWide]
  split
  · rfl
  · dsimp only
    split <;> rfl

private theorem output (text : Bytes) : KeepsMark (Routine.output text) := fun _ => rfl

/-- All routines but the allocator. -/
theorem routine {routine : Routine} (other : routine ≠ .malloc) : KeepsMark routine.run := by
  cases routine with
  | printf =>
    refine (look _).bind fun format => (look _).bind fun text => (output text).bind
      fun written => (setRegister _ _).bind fun _ => ?_
    split
    · exact pure _
    · exact throw _
  | puts =>
    refine (look _).bind fun text => (output _).bind fun written =>
      (setRegister _ _).bind fun _ => ?_
    split
    · exact pure _
    · exact throw _
  | malloc => exact absurd rfl other
  | exit => exact (look _).bind fun status => halt _
  | abort => exact (halt _).bind fun _ => throw _

/-- All instructions but a call of the allocator. -/
theorem execute {i : Instr}
    (other : ∀ o rest, i.mnemonic = .call → i.operands = o :: rest → o.destination.index < 0 →
      Routine.ofSymbol? o.destination.symbol ≠ some .malloc) : KeepsMark (execute i) := by
  have reads {γ : Type} {index : Nat} {next : Word → Exec γ} (later : ∀ v, KeepsMark (next v)) :
      KeepsMark (Exec.operand i index >>= fun o => Exec.read o >>= next) :=
    (operand i index).bind fun o => (read o).bind later
  have writes (index : Nat) (value : Word) :
      KeepsMark (Exec.operand i index >>= (Exec.write · value)) :=
    (operand i index).bind fun o => write o value
  unfold Machine.execute
  cases same : i.mnemonic with
  | nop => exact pure _
  | movl => exact reads fun v => writes 1 v
  | movb =>
    exact (operand i 0).bind fun o => (readByte o).bind fun v => (operand i 1).bind fun o =>
      writeOperandByte o v
  | movzbl => exact (operand i 0).bind fun o => (readByte o).bind fun v => writes 1 _
  | leal => exact (operand i 0).bind fun o => (address o).bind fun v => writes 1 v
  | pushl => exact reads fun v => push v
  | popl => exact pop.bind fun v => writes 0 v
  | arithmetic operation =>
    exact (operand i 0).bind fun o => (operand i 1).bind fun p => (read o).bind fun w =>
      (read p).bind fun v => (setFlags _).bind fun _ => write p _
  | cmpl =>
    exact (operand i 0).bind fun o => (operand i 1).bind fun p => (read o).bind fun w =>
      (read p).bind fun v => setFlags _
  | imull =>
    refine reads fun w => ?_
    split
    · exact get fun _ => (setRegister _ _).bind fun _ => (setRegister _ _).bind fun _ => setFlags _
    · exact (operand i 1).bind fun p => (read p).bind fun v => get fun m =>
        (setFlags _).bind fun _ => write p _
  | idivl => exact reads fun v => divideWide v
  | cdq => exact (getRegister _).bind fun _ => setRegister _ _
  | negl =>
    exact (operand i 0).bind fun p => (read p).bind fun v => (setFlags _).bind fun _ => write p _
  | shll =>
    exact reads fun w => (operand i 1).bind fun p => (read p).bind fun v => get fun m =>
      (setFlags _).bind fun _ => write p _
  | set comparison => exact get fun m => (operand i 0).bind fun p => writeOperandByte p _
  | jmp => exact (operand i 0).bind fun o => setPc _
  | jump condition =>
    refine get fun m => ?_
    split
    · exact (operand i 0).bind fun o => setPc _
    · exact pure _
  | call =>
    intro m
    unfold Exec.operand
    cases operands : i.operands with
    | nil => rfl
    | cons o rest =>
      suffices calls : KeepsMark (callTo o.destination) from calls m
      unfold callTo
      split
      · rename_i outside
        unfold Routine.call
        split
        · rename_i routine known
          refine KeepsMark.routine fun isMalloc => other o rest same operands outside ?_
          rw [known, isMalloc]
        · exact throw _
      · exact get fun m => (push _).bind fun _ => setPc _
  | ret =>
    refine pop.bind fun v => ?_
    split
    · exact (getRegister _).bind fun _ => halt _
    · exact setPc _
  | leave =>
    exact (getRegister _).bind fun _ => (setRegister _ _).bind fun _ => pop.bind fun _ =>
      setRegister _ _
  | unknown name => exact throw _

end KeepsMark

/-- The allocator gives out a block, or zero when there is no room. -/
theorem perform_malloc {m : Machine} {size : Word} (given : Routine.argument m 0 = .ok size) :
    perform Routine.malloc.run m =
      if heapLimit < m.heap.toNat + size.toNat then
        (.ok (), { m with registers := m.registers.set .eax 0 })
      else
        (.ok (), { m with
          registers := m.registers.set .eax m.heap, heap := Routine.roundUp (m.heap + size) }) := by
  simp only [Routine.run, perform_bind, perform_look, given, perform_get]
  split <;> rfl

/-- The size that the next step asks the allocator for. -/
def request? (m : Machine) : Option Word :=
  if m.routine? = some .malloc then (Routine.argument m 0).toOption else none

section Step

variable {m : Machine} {size : Word}

/-- A routine that is called at the next step is called by its instruction. -/
theorem execute_of_routine? {routine : Routine} (calls : m.routine? = some routine) :
    m.halted = false ∧ ∃ i, m.fetch? = some i ∧
      perform (execute i) m.next = perform routine.run m.next := by
  unfold routine? at calls
  split at calls
  · cases calls
  rename_i running
  rw [Bool.not_eq_true] at running
  split at calls
  · rename_i target rest line fetched
    split at calls
    · rename_i outside
      refine ⟨running, _, fetched, ?_⟩
      have opened : perform (execute ⟨.call, target :: rest, line⟩) m.next =
          perform (callTo target.destination) m.next := rfl
      rw [opened, callTo, if_pos outside, Routine.call, calls]
    · cases calls
  · cases calls

/-- Only a request that the allocator can read moves its mark. -/
theorem heap_step (none : m.request? = none) : m.step.2.heap = m.heap := by
  by_cases calls : m.routine? = some .malloc
  · rw [request?, if_pos calls] at none
    obtain ⟨running, i, fetched, executed⟩ := execute_of_routine? calls
    rw [step_eq_reported running fetched, executed]
    have unread : perform (Exec.look fun m => Routine.argument m 0) m.next =
        (Routine.argument m 0, m.next) := perform_look
    simp only [Routine.run, perform_bind, unread]
    cases read : Routine.argument m 0 with
    | error fault => rfl
    | ok size =>
      rw [read] at none
      cases none
  · cases running : m.halted with
    | true => rw [step_halted running]
    | false =>
      cases fetched : m.fetch? with
      | none => rw [step_left running fetched]
      | some i =>
        have kept : KeepsMark (execute i) := by
          refine .execute fun o rest isCall operands outside known => calls ?_
          rcases i with ⟨mnemonic, _, line⟩
          dsimp only at isCall operands
          subst isCall operands
          simp only [routine?, running, fetched, if_pos outside, known]
          rfl
        rw [step_eq_reported running fetched]
        exact kept m.next

/-- What the allocator does on a request. -/
theorem step_of_request (asked : m.request? = some size) :
    m.step = (.ok (),
      if heapLimit < m.heap.toNat + size.toNat then
        { m.next with registers := m.registers.set .eax 0 }
      else { m.next with
        registers := m.registers.set .eax m.heap, heap := Routine.roundUp (m.heap + size) }) := by
  unfold request? at asked
  split at asked
  · rename_i calls
    obtain ⟨running, i, fetched, executed⟩ := execute_of_routine? calls
    have given : Routine.argument m.next 0 = .ok size := by
      cases read : Routine.argument m 0 with
      | error fault =>
        rw [read] at asked
        cases asked
      | ok other =>
        rw [read] at asked
        cases asked
        exact read
    have mark : m.next.heap = m.heap := rfl
    rw [step_eq_reported running fetched, executed, perform_malloc given, mark]
    split <;> rfl
  · cases asked

end Step

/-- Whether the mark lies between an address and the stack. -/
structure Marked (low : Nat) (m : Machine) : Prop where
  aligned : m.heap.toNat % 8 = 0
  above : low ≤ m.heap.toNat
  below : m.heap.toNat ≤ heapLimit

/-- Whether the next step is a request for which there is room. -/
structure Granted (m : Machine) (size : Word) : Prop where
  asked : m.request? = some size
  room : m.heap.toNat + size.toNat ≤ heapLimit

section Mark

variable {low : Nat} {m : Machine} {size : Word}

theorem Granted.result (granted : Granted m size) :
    m.step = (.ok (), { m.next with
      registers := m.registers.set .eax m.heap, heap := Routine.roundUp (m.heap + size) }) := by
  rw [step_of_request granted.asked, if_neg (by have := granted.room; omega)]

/-- The mark moves past the block that is given out, to the next multiple of eight. -/
theorem Granted.toNat_heap (granted : Granted m size) :
    m.step.2.heap.toNat = (m.heap.toNat + size.toNat + 7) / 8 * 8 := by
  have room := granted.room
  have small : heapLimit + 7 < 0x100000000 := by decide
  have sum : (m.heap + size).toNat = m.heap.toNat + size.toNat :=
    Word.toNat_add_of_lt (by omega)
  rw [granted.result, ← sum]
  exact Routine.toNat_roundUp (by omega)

/-- One step leaves the mark alone, or it gives out a block. -/
theorem heap_step_cases (m : Machine) :
    m.step.2.heap = m.heap ∨ ∃ size, Granted m size := by
  cases asked : m.request? with
  | none => exact .inl (heap_step asked)
  | some size =>
    by_cases full : heapLimit < m.heap.toNat + size.toNat
    · refine .inl ?_
      rw [step_of_request asked, if_pos full]
      rfl
    · exact .inr ⟨size, asked, by omega⟩

theorem heap_le_step (m : Machine) : m.heap.toNat ≤ m.step.2.heap.toNat := by
  rcases heap_step_cases m with kept | ⟨size, granted⟩
  · rw [kept]
  · rw [granted.toNat_heap]
    omega

theorem Marked.step (marked : Marked low m) : Marked low m.step.2 := by
  rcases heap_step_cases m with kept | ⟨size, granted⟩
  · exact ⟨kept ▸ marked.aligned, kept ▸ marked.above, kept ▸ marked.below⟩
  · have moved := granted.toNat_heap
    have room := granted.room
    have above := marked.above
    have limit : heapLimit % 8 = 0 := by decide
    exact ⟨by omega, by omega, by omega⟩

theorem Marked.after (marked : Marked low m) (n : Nat) : Marked low (m.after n) := by
  induction n with
  | zero => exact marked
  | succ n ih => exact ih.step

theorem heap_le_after (m : Machine) {i j : Nat} (order : i ≤ j) :
    (m.after i).heap.toNat ≤ (m.after j).heap.toNat := by
  induction order with
  | refl => exact le_refl _
  | step _ ih => exact le_trans ih (heap_le_step _)

/-- A block starts after the end of every block that was given out before. -/
theorem Granted.before {i j : Nat} {other : Word} (order : i < j)
    (first : Granted (m.after i) size) (second : Granted (m.after j) other) :
    (m.after i).step.2.registers.eax.toNat + size.toNat ≤
      (m.after j).step.2.registers.eax.toNat := by
  have moved := first.toNat_heap
  have later : (m.after (i + 1)).heap.toNat ≤ (m.after j).heap.toNat := heap_le_after m order
  rw [first.result, second.result]
  change (m.after i).heap.toNat + size.toNat ≤ (m.after j).heap.toNat
  change (m.after (i + 1)).heap.toNat = _ at moved
  omega

end Mark

/-- What the allocator answers to a request of the next step. -/
structure Answered (low : Nat) (m : Machine) (size : Word) : Prop where
  succeeds : m.step.1 = .ok ()
  refused : heapLimit < m.heap.toNat + size.toNat →
    m.step.2.registers.eax = 0 ∧ m.step.2.heap = m.heap
  granted : m.heap.toNat + size.toNat ≤ heapLimit →
    m.step.2.registers.eax.toNat % 8 = 0 ∧ low ≤ m.step.2.registers.eax.toNat ∧
      m.step.2.registers.eax.toNat + size.toNat ≤ heapLimit

theorem Marked.answered {low : Nat} {m : Machine} {size : Word} (marked : Marked low m)
    (asked : m.request? = some size) : Answered low m size where
  succeeds := by rw [step_of_request asked]
  refused full := by
    rw [step_of_request asked, if_pos full]
    exact ⟨rfl, rfl⟩
  granted room := by
    rw [Granted.result ⟨asked, room⟩]
    exact ⟨marked.aligned, marked.above, room⟩

/-- What is true of the allocator in the states of a run, where data ends at an address. -/
structure Allocates (low : Nat) (run : Nat → Machine) : Prop where
  marked : ∀ n, Marked low (run n)
  grows : ∀ {i j}, i ≤ j → (run i).heap ≤ (run j).heap
  /-- Nothing but a request changes the mark. -/
  only : ∀ n, (run (n + 1)).heap ≠ (run n).heap → ∃ size, (run n).request? = some size
  answers : ∀ {n size}, (run n).request? = some size → Answered low (run n) size
  /-- The blocks of two requests do not overlap. -/
  apart : ∀ {i j size other}, i ≠ j → Granted (run i) size → Granted (run j) other →
    (run i).step.2.registers.eax.toNat + size.toNat ≤ (run j).step.2.registers.eax.toNat ∨
    (run j).step.2.registers.eax.toNat + other.toNat ≤ (run i).step.2.registers.eax.toNat

theorem Marked.allocates {low : Nat} {m : Machine} (marked : Marked low m) :
    Allocates low m.after where
  marked := marked.after
  grows order := UInt32.le_iff_toNat_le.mpr (heap_le_after m order)
  only n changed := by
    cases asked : (m.after n).request? with
    | none => exact absurd (heap_step asked) changed
    | some size => exact ⟨size, rfl⟩
  answers {n _} asked := (marked.after n).answered asked
  apart differ first second := by
    rcases Nat.lt_or_gt_of_ne differ with before | after
    · exact .inl (first.before before second)
    · exact .inr (second.before after first)

theorem heap_start (m : Machine) (entry : Bytes) : (m.start entry).2.heap = m.heap := by
  have pushed := KeepsMark.push returnSentinel m
  have opened : (Exec.push returnSentinel).run m = perform (Exec.push returnSentinel) m := rfl
  unfold start
  cases m.label? entry with
  | none => rfl
  | some index =>
    dsimp only
    rw [opened]
    generalize perform (Exec.push returnSentinel) m = result at pushed
    rcases result with ⟨_ | _, next⟩ <;> exact pushed

/-- Loading puts the mark on the first multiple of sixteen after the data. -/
theorem marked_load {m first : Machine} {image : Assembly.Image}
    (loaded : m.load image = .ok first) :
    Marked (Assembly.dataBase + image.data.size.toUInt32).toNat first := by
  simp only [load] at loaded
  split at loaded
  · cases loaded
  · rename_i fits
    cases loaded
    have limit : heapLimit % 16 = 0 := by decide
    have small : heapLimit + 15 < 0x100000000 := by decide
    have mark : (((Assembly.dataBase + image.data.size.toUInt32) + 15) &&& ~~~15 : Word).toNat =
        ((Assembly.dataBase + image.data.size.toUInt32).toNat + 15) / 16 * 16 := by
      have fifteen : (15 : Word).toNat = 15 := rfl
      rw [Word.toNat_and_not 4 rfl, Word.toNat_add_of_lt (by omega), fifteen]
      rfl
    constructor <;> dsimp only <;> omega

/-- A program with a byte of data that asks for two blocks, and for more than there is. -/
private def greedy : Bytes :=
  "main:\npushl $5\ncall malloc\npushl $16\ncall malloc\npushl $-1\ncall malloc\n.data\n.byte 7\n"

end Onepass.Machine
