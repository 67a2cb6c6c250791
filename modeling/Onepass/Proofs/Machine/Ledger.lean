import Onepass.Proofs.Machine.Steps

/-! Which memory accesses a program may make. A ledger keeps the blocks that the allocator gave out,
and whether the header of a block was set. A program is safe as long as every access lies on the
stack, reads a constant of the data, or lies in the header or one element of a block, or else fails
because it goes through a null pointer. -/
namespace Onepass.Machine

/-- A block that the allocator gave out. -/
structure Block where
  address : Word
  size : Nat
  /-- The element count in the header, once it is set. -/
  length : Option Word := none
deriving DecidableEq

/-- The blocks in the order of their allocation. -/
abbrev Ledger := List Block

/-- The routine of the library that the next step calls. -/
def routine? (m : Machine) : Option Routine :=
  if m.halted then none
  else
    match m.fetch? with
    | some ⟨.call, target :: _, _⟩ =>
      if target.destination.index < 0 then Routine.ofSymbol? target.destination.symbol else none
    | _ => none

/-- The block that the next step allocates, unless the allocator fails. -/
def allocation? (m : Machine) : Option Block :=
  if m.routine? = some .malloc ∧ m.step.2.registers.eax ≠ 0 then
    some { address := m.step.2.registers.eax,
           size := (m.memory.readWord (Routine.argumentAddress m 0)).toNat }
  else none

/-- A block after the next step: the first write to its header sets the length. -/
def Block.after (m : Machine) (b : Block) : Block :=
  if b.length = none ∧ ⟨b.address, 4, true⟩ ∈ m.accesses then
    { b with length := some (m.step.2.memory.readWord b.address) }
  else b

namespace Ledger

/-- The ledger after the next step. -/
def track (blocks : Ledger) (m : Machine) : Ledger :=
  blocks.map (Block.after m) ++ m.allocation?.toList

/-- Whether the headers of all blocks are set. -/
def Sealed (blocks : Ledger) : Prop := ∀ b ∈ blocks, b.length ≠ none

/-- Whether blocks lie one after the other between two addresses, each with room for a header. -/
structure Tidy (low high : Nat) (blocks : Ledger) : Prop where
  apart : blocks.Pairwise fun a b => a.address.toNat + a.size ≤ b.address.toNat
  within : ∀ b ∈ blocks, low ≤ b.address.toNat ∧ b.address.toNat + b.size ≤ high
  header : ∀ b ∈ blocks, 4 ≤ b.size

theorem Tidy.nil (low high : Nat) : Tidy low high [] where
  apart := .nil
  within _ member := absurd member List.not_mem_nil
  header _ member := absurd member List.not_mem_nil

theorem Tidy.mono {low high upper : Nat} {blocks : Ledger} (tidy : blocks.Tidy low high)
    (le : high ≤ upper) : blocks.Tidy low upper where
  apart := tidy.apart
  within b member := ⟨(tidy.within b member).1, le_trans (tidy.within b member).2 le⟩
  header := tidy.header

/-- Another block can be added where the last one ends. -/
theorem Tidy.append {low high upper : Nat} {blocks : Ledger} {block : Block}
    (tidy : blocks.Tidy low high) (order : low ≤ high) (place : block.address.toNat = high)
    (room : high + block.size ≤ upper) (whole : 4 ≤ block.size) :
    Tidy low upper (blocks ++ [block]) where
  apart := by
    refine List.pairwise_append.mpr ⟨tidy.apart, List.pairwise_singleton .., ?_⟩
    intro b member c last
    obtain rfl := List.mem_singleton.mp last
    rw [place]
    exact (tidy.within b member).2
  within b member := by
    rcases List.mem_append.mp member with old | last
    · have inside := tidy.within b old
      omega
    · obtain rfl := List.mem_singleton.mp last
      omega
  header b member := by
    rcases List.mem_append.mp member with old | last
    · exact tidy.header b old
    · obtain rfl := List.mem_singleton.mp last
      exact whole

/-- Setting the length of the last block moves no block. -/
theorem Tidy.setLast {low high : Nat} {blocks : Ledger} {block : Block}
    (tidy : Tidy low high (blocks ++ [block])) (length : Option Word) :
    Tidy low high (blocks ++ [{ block with length }]) where
  apart := by
    obtain ⟨others, _, last⟩ := List.pairwise_append.mp tidy.apart
    refine List.pairwise_append.mpr ⟨others, List.pairwise_singleton .., ?_⟩
    intro b member c final
    obtain rfl := List.mem_singleton.mp final
    exact last b member block (List.mem_singleton_self _)
  within b member := by
    rcases List.mem_append.mp member with old | last
    · exact tidy.within b (List.mem_append_left _ old)
    · obtain rfl := List.mem_singleton.mp last
      exact tidy.within block (List.mem_append_right _ (List.mem_singleton_self _))
  header b member := by
    rcases List.mem_append.mp member with old | last
    · exact tidy.header b (List.mem_append_left _ old)
    · obtain rfl := List.mem_singleton.mp last
      exact tidy.header block (List.mem_append_right _ (List.mem_singleton_self _))

/-- Different blocks do not overlap. -/
theorem Tidy.disjoint {low high r q : Nat} {blocks : Ledger} {b c : Block}
    (tidy : blocks.Tidy low high) (first : blocks[r]? = some b) (second : blocks[q]? = some c)
    (differ : r ≠ q) :
    b.address.toNat + b.size ≤ c.address.toNat ∨ c.address.toNat + c.size ≤ b.address.toNat := by
  obtain ⟨boundB, rfl⟩ := List.getElem?_eq_some_iff.mp first
  obtain ⟨boundC, rfl⟩ := List.getElem?_eq_some_iff.mp second
  have apart := List.pairwise_iff_getElem.mp tidy.apart
  rcases Nat.lt_or_gt_of_ne differ with before | after
  · exact .inl (apart r q boundB boundC before)
  · exact .inr (apart q r boundC boundB after)

end Ledger

/-- Bytes of constant data. -/
structure Constant where
  address : Word
  size : Nat
deriving DecidableEq

/-- The lowest address of the stack that the next step may use: a push has moved the stack pointer
before it writes. -/
def stackFloor (m : Machine) : Word :=
  if m.fetch?.map Instr.mnemonic = some .pushl then m.registers.esp - 4 else m.registers.esp

/-- What an access of the next step may be. -/
inductive Permitted (constants : List Constant) (blocks : Ledger) (m : Machine) (a : Access) :
    Prop where
  /-- It lies on the stack. -/
  | stack (above : m.stackFloor.toNat ≤ a.address.toNat)
      (below : a.address.toNat + a.size ≤ memorySize)
  /-- It reads bytes of one constant. -/
  | constant (piece : Constant) (known : piece ∈ constants) (reads : a.isWrite = false)
      (above : piece.address.toNat ≤ a.address.toNat)
      (below : a.address.toNat + a.size ≤ piece.address.toNat + piece.size)
  /-- It is the header of one block, which is only written to set the length. -/
  | header (block : Block) (known : block ∈ blocks) (place : a.address = block.address)
      (whole : a.size = 4) (once : a.isWrite = true → block.length = none)
  /-- It is one element of one block. -/
  | element (block : Block) (known : block ∈ blocks) (count : Word)
      (set : block.length = some count) (divided : block.size = 4 + count.toNat * a.size)
      (index : Nat) (inside : index < count.toNat)
      (place : a.address.toNat = block.address.toNat + 4 + index * a.size)
  /-- It fails below the data. -/
  | null (below : a.address < Assembly.dataBase) (i : Instr)
      (fails : m.step.1 = .error ⟨.badAccess a.size a.address, some i⟩)

/-- Whether all accesses of the next step are permitted. -/
def Safe (constants : List Constant) (blocks : Ledger) (m : Machine) : Prop :=
  ∀ a ∈ m.accesses, Permitted constants blocks m a

/-- Whether the stack pointer is inside the reserved stack. -/
def InStack (m : Machine) : Prop :=
  heapLimit ≤ m.registers.esp.toNat ∧ m.registers.esp.toNat ≤ memorySize

/-- The states that successful steps reach while the stack pointer stays inside the stack, with
what becomes of the ledger. -/
inductive Reaches (blocks : Ledger) (m : Machine) : Ledger → Machine → Prop where
  | start (inside : m.InStack) : Reaches blocks m blocks m
  | step {later : Ledger} {middle after : Machine} (earlier : Reaches blocks m later middle)
      (stepped : middle.step = (.ok (), after)) (inside : after.InStack) :
      Reaches blocks m (later.track middle) after

/-- The states that steps without an error reach. -/
inductive Reachable (m : Machine) : Machine → Prop where
  | start : Reachable m m
  | step {middle after : Machine} (earlier : Reachable m middle)
      (stepped : middle.step = (.ok (), after)) : Reachable m after

theorem Reachable.head {m next after : Machine} (stepped : m.step = (.ok (), next))
    (reachable : next.Reachable after) : m.Reachable after := by
  induction reachable with
  | start => exact .step .start stepped
  | step _ stepped ih => exact .step ih stepped

/-- A step that is made in a state of which something holds. -/
structure Moves (watch : Ledger → Machine → Prop) (blocks : Ledger) (m : Machine) (later : Ledger)
    (after : Machine) : Prop where
  running : m.halted = false
  watched : watch blocks m
  stepped : m.step = (.ok (), after)
  tracked : blocks.track m = later

/-- A machine makes steps until it is where it should be, unless its stack overflows or its output
is refused. Something holds of every state in which it makes a step. -/
inductive Leads (watch goal : Ledger → Machine → Prop) : Ledger → Machine → Prop where
  | here {blocks : Ledger} {m : Machine} (reached : goal blocks m) : Leads watch goal blocks m
  | spilled {blocks : Ledger} {m : Machine} (left : ¬ m.InStack) : Leads watch goal blocks m
  | refused {blocks : Ledger} {m : Machine} (running : m.halted = false) (watched : watch blocks m)
      (i : Option Instr) (full : m.step.1 = .error ⟨.sinkFull, i⟩)
      (limited : m.sink.room ≠ none) : Leads watch goal blocks m
  | next {blocks later : Ledger} {m after : Machine} (moves : Moves watch blocks m later after)
      (rest : Leads watch goal later after) : Leads watch goal blocks m

section

variable {watch goal other : Ledger → Machine → Prop}
  {blocks later : Ledger} {m after : Machine}

theorem Leads.trans (leads : Leads watch goal blocks m)
    (onward : ∀ later after, goal later after → Leads watch other later after) :
    Leads watch other blocks m := by
  induction leads with
  | here reached => exact onward _ _ reached
  | spilled left => exact .spilled left
  | refused running watched i full limited => exact .refused running watched i full limited
  | next moves _ ih => exact .next moves ih

theorem Leads.mono (leads : Leads watch goal blocks m)
    (weaker : ∀ later after, goal later after → other later after) :
    Leads watch other blocks m :=
  leads.trans fun later after reached => .here (weaker later after reached)

/-- A machine may be taken to be inside its stack. -/
theorem Leads.inside (leads : m.InStack → Leads watch goal blocks m) :
    Leads watch goal blocks m := by
  by_cases inStack : m.InStack
  · exact leads inStack
  · exact .spilled inStack

/-- The goal is reached after the start. -/
theorem Leads.counted (leads : Leads watch goal blocks m) :
    Leads watch (fun later after => goal later after ∧ m.steps ≤ after.steps) blocks m := by
  induction leads with
  | here reached => exact .here ⟨reached, le_refl _⟩
  | spilled left => exact .spilled left
  | refused running watched i full limited => exact .refused running watched i full limited
  | next moves _ ih =>
    have more := steps_step moves.running moves.stepped
    exact .next moves (ih.mono fun later after ⟨reached, count⟩ => ⟨reached, by omega⟩)

theorem Reaches.inside (reaches : Reaches blocks m later after) : after.InStack := by
  cases reaches <;> assumption

theorem Reaches.trans {last : Ledger} {final : Machine} (first : Reaches blocks m later after)
    (second : Reaches later after last final) : Reaches blocks m last final := by
  induction second with
  | start _ => exact first
  | step _ stepped inside ih => exact .step ih stepped inside

theorem Reaches.steps_le (reaches : Reaches blocks m later after) : m.steps ≤ after.steps := by
  induction reaches with
  | start _ => exact le_refl _
  | @step _ middle _ _ stepped _ ih =>
    have more := steps_le_step middle
    rw [stepped] at more
    exact le_trans ih more

/-- A machine whose next step fails is the last one that is reached. -/
theorem Reaches.of_error {stop : Stop} (reaches : Reaches blocks m later after)
    (failed : m.step.1 = .error stop) : later = blocks ∧ after = m := by
  induction reaches with
  | start _ => exact ⟨rfl, rfl⟩
  | step _ stepped _ ih =>
    obtain ⟨rfl, rfl⟩ := ih
    rw [stepped] at failed
    cases failed

/-- Where a number of steps inside the stack leads. -/
def walk : Nat → Ledger → Machine → Option (Ledger × Machine)
  | 0, blocks, m => some (blocks, m)
  | count + 1, blocks, m =>
    match m.step with
    | (.ok (), next) =>
      if heapLimit ≤ next.registers.esp.toNat ∧ next.registers.esp.toNat ≤ memorySize then
        walk count (blocks.track m) next
      else none
    | (.error _, _) => none

theorem reaches_of_walk {count : Nat} (inside : m.InStack)
    (walked : walk count blocks m = some (later, after)) : Reaches blocks m later after := by
  induction count generalizing blocks m with
  | zero =>
    cases walked
    exact .start inside
  | succ count ih =>
    unfold walk at walked
    split at walked
    · rename_i next stepped
      split at walked
      · rename_i stays
        exact (Reaches.step (.start inside) stepped stays).trans (ih stays walked)
      · cases walked
    · cases walked

/-- A state that is reached is on the way to the goal, or the goal was passed. -/
theorem Leads.of_reaches (leads : Leads watch goal blocks m)
    (reaches : Reaches blocks m later after) :
    Leads watch goal later after ∨
      ∃ between middle, Reaches blocks m between middle ∧ goal between middle ∧
        Reaches between middle later after := by
  induction reaches with
  | start _ => exact .inl leads
  | @step found middle after earlier stepped inside ih =>
    rcases ih with onward | ⟨between, passed, first, reached, second⟩
    · cases onward with
      | here reached =>
        exact .inr ⟨found, middle, earlier, reached, .step (.start earlier.inside) stepped inside⟩
      | spilled left => exact absurd earlier.inside left
      | refused _ _ _ full _ =>
        rw [stepped] at full
        cases full
      | next moves rest =>
        have same := moves.stepped.symm.trans stepped
        simp only [Prod.mk.injEq, true_and] at same
        rw [moves.tracked, ← same]
        exact .inl rest
    · exact .inr ⟨between, passed, first, reached, .step second stepped inside⟩

theorem mem_upToFault {a : Access} {list : List Access} (member : a ∈ upToFault list) :
    a ∈ list := by
  induction list with
  | nil => exact member
  | cons first rest ih =>
    simp only [upToFault, List.mem_cons] at member
    rcases member with rfl | later
    · exact List.mem_cons_self ..
    · split at later
      · exact List.mem_cons_of_mem _ (ih later)
      · cases later

section

variable {i : Instr}

theorem mem_accesses {a : Access} (fetched : m.fetch? = some i) (member : a ∈ m.accesses) :
    a ∈ i.accesses m := by
  unfold accesses at member
  split at member
  · cases member
  · rw [fetched] at member
    exact mem_upToFault member

theorem routine?_of_plain (fetched : m.fetch? = some i) (plain : i.mnemonic ≠ .call) :
    m.routine? = none := by
  unfold routine?
  split
  · rfl
  · rw [fetched]
    split
    · rename_i same
      cases same
      exact absurd rfl plain
    · rfl

/-- What the ledger learns from a call of the allocator. -/
theorem allocation?_eq {h : Word} {size : Nat} (calls : m.routine? = some .malloc)
    (result : m.step.2.registers.eax = h)
    (given : (m.memory.readWord (Routine.argumentAddress m 0)).toNat = size) :
    m.allocation? = if h = 0 then none else some ⟨h, size, none⟩ := by
  unfold allocation?
  rw [calls, result, given]
  by_cases none : h = 0
  · rw [if_neg (by simp [none]), if_pos none]
  · rw [if_pos ⟨rfl, none⟩, if_neg none]

theorem Block.after_of_sealed {b : Block} (set : b.length ≠ none) : b.after m = b := by
  simp [Block.after, set]

theorem Ledger.track_of_sealed (closed : blocks.Sealed) :
    blocks.track m = blocks ++ m.allocation?.toList := by
  have same : blocks.map (Block.after m) = blocks :=
    (List.map_congr_left fun b member => Block.after_of_sealed (closed b member)).trans
      (List.map_id _)
  rw [track, same]

/-- Only a call of the allocator or a write to an open header changes the ledger. -/
theorem Ledger.track_eq (plain : m.routine? ≠ some .malloc)
    (kept : ∀ b ∈ blocks, b.length ≠ none ∨ ⟨b.address, 4, true⟩ ∉ m.accesses) :
    blocks.track m = blocks := by
  have unallocated : m.allocation? = none := by simp [allocation?, plain]
  have same : blocks.map (Block.after m) = blocks := by
    refine (List.map_congr_left fun b member => ?_).trans (List.map_id _)
    rcases kept b member with set | untouched
    · exact Block.after_of_sealed set
    · simp [Block.after, untouched]
  rw [track, same, unallocated]
  simp

theorem Ledger.track_of_halted (halted : m.halted = true) : blocks.track m = blocks :=
  track_eq (by simp [routine?, halted]) fun _ _ => .inr (by simp [accesses, halted])

/-- A machine that has halted stays as it is. -/
theorem Reaches.of_halted (reaches : Reaches blocks m later after) (halted : m.halted = true) :
    later = blocks ∧ after = m := by
  induction reaches with
  | start _ => exact ⟨rfl, rfl⟩
  | step _ stepped _ ih =>
    obtain ⟨rfl, rfl⟩ := ih
    simp only [Machine.step, halted, if_true, Prod.mk.injEq, true_and] at stepped
    exact ⟨Ledger.track_of_halted halted, stepped.symm⟩

end

end

end Onepass.Machine
