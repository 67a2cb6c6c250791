import Onepass.Proofs.Simulation.Code

/-! The operands and the instructions of compiled programs: what each operand holds and when it may
be accessed, and what each instruction makes of its operands. -/
namespace Onepass.Simulation

open Assembly (Code)
open Machine

section Operands

variable {P : Setting} {blocks : Ledger} {r : Registers} {memory : Memory} {s base : Register}
  {offset : Int32} {v a : Word}

theorem readable_register (s : Register) : Readable P blocks r memory (.full s) (r.get s) where
  value m same _ := by
    subst same
    rfl
  allowed m _ _ := by simp [Operand.accesses, Operand.address?, Operand.register]

theorem readable_immediate (value : Int32) :
    Readable P blocks r memory (.immediate value) value.toUInt32 where
  value _ _ _ := rfl
  allowed m _ _ := by simp [Operand.accesses, Operand.address?, Operand.immediate]

theorem readable_constant (n : Int) :
    Readable P blocks r memory (.immediate (Int32.ofInt (Codegen.wrap n))) (.ofInt n) := by
  rw [← ofInt_wrap]
  exact readable_immediate _

theorem mem_accesses_at {m : Machine} {size : Nat} {isWrite : Bool} {access : Access}
    (same : m.registers = r) (place : r.get base + offset.toUInt32 = a) :
    access ∈ (Operand.at offset base).accesses m size isWrite ↔ access = ⟨a, size, isWrite⟩ := by
  subst same place
  simp [Operand.accesses, Operand.address?, Operand.memory, register?]

theorem readable_at (place : r.get base + offset.toUInt32 = a) (fine : accessible a 4 = true)
    (allowed : ∀ m : Machine, m.registers = r → m.InStack →
      Permitted P.constants blocks m ⟨a, 4, false⟩) :
    Readable P blocks r memory (.at offset base) (memory.readWord a) where
  value m same other := by
    subst same other
    exact read_memory place fine
  allowed m same inside access member := by
    rw [mem_accesses_at same place] at member
    exact member ▸ allowed m same inside

theorem writable_register (s : Register) (v : Word) :
    Writable P blocks r memory (.full s) v (r.set s v) memory where
  effect m same other := by
    subst same other
    rfl
  allowed m _ _ := by simp [Operand.accesses, Operand.address?, Operand.register]
  kept m _ b _ := by simp [Operand.accesses, Operand.address?, Operand.register]

theorem writable_at (v : Word) (place : r.get base + offset.toUInt32 = a)
    (fine : accessible a 4 = true)
    (allowed : ∀ m : Machine, m.registers = r → m.InStack →
      Permitted P.constants blocks m ⟨a, 4, true⟩)
    (kept : ∀ b ∈ blocks, b.length ≠ none ∨ b.address ≠ a) :
    Writable P blocks r memory (.at offset base) v r (memory.writeWord a v) where
  effect m same other := by
    subst same other
    exact write_memory place fine
  allowed m same inside access member := by
    rw [mem_accesses_at same place] at member
    exact member ▸ allowed m same inside
  kept m same b member := by
    refine (kept b member).imp id fun differ found => differ ?_
    rw [mem_accesses_at same place] at found
    exact congrArg Access.address found

section

variable (inside : heapLimit ≤ r.esp.toNat) (place : r.get base + offset.toUInt32 = a)
  (above : r.esp.toNat ≤ a.toNat) (below : a.toNat + 4 ≤ memorySize)

include inside place above below

theorem readable_stack : Readable P blocks r memory (.at offset base) (memory.readWord a) :=
  readable_at place (accessible_stack (by omega) below) fun m same within =>
    permitted_stack within (by rw [same]; exact above) below

theorem writable_stack (tidy : blocks.Tidy P.dataEnd heapLimit) (v : Word) :
    Writable P blocks r memory (.at offset base) v r (memory.writeWord a v) := by
  refine writable_at v place (accessible_stack (by omega) below)
    (fun m same within => permitted_stack within (by rw [same]; exact above) below)
    fun b member => .inr ?_
  rintro rfl
  have bound := tidy.within b member
  have header := tidy.header b member
  omega

end

end Operands

section Instructions

variable {P : Setting} {blocks : Ledger} {goal : Ledger → Machine → Prop} {m origin : Machine}
  {mnemonic name : Bytes} {code rest : Code} {r after : Registers} {memory changed : Memory}
  {flags : Flags} {v w : Word} {a b : Assembly.Operand} {x y : Operand}

theorem At.inside (here : At P blocks origin code r memory flags m) :
    heapLimit ≤ r.esp.toNat ∧ r.esp.toNat ≤ memorySize := by
  rw [← here.registers]
  exact here.ready.inside

theorem write_not_mem_reads {size : Nat} {address : Word} :
    (⟨address, 4, true⟩ : Access) ∉ x.accesses m size false := by
  simp [Operand.accesses]

theorem Writable.kept_after {reads : List Access}
    (writes : Writable P blocks r memory y v after changed) (same : m.registers = r)
    (others : ∀ address, (⟨address, 4, true⟩ : Access) ∉ reads) {block : Block}
    (member : block ∈ blocks) :
    block.length ≠ none ∨ ⟨block.address, 4, true⟩ ∉ reads ++ y.accesses m 4 true := by
  refine (writes.kept m same block member).imp id fun untouched found => ?_
  rcases List.mem_append.mp found with read | written
  · exact others _ read
  · exact untouched written

theorem At.movl
    (here : At P blocks origin (.instruction "movl" [a, b] :: rest) r memory flags m)
    (source : P.layout.operand a = .ok x) (target : P.layout.operand b = .ok y)
    (reads : Readable P blocks r memory x v) (writes : Writable P blocks r memory y v after changed)
    (onward : ∀ n, At P blocks origin rest after changed flags n → Leads P.Watch goal blocks n) :
    Leads P.Watch goal blocks m := by
  have inside := here.ready.inside
  refine here.execute (instruction_two rfl rfl rfl source target) (by decide) (by decide)
    (fun _ line access member => ?_)
    (fun line block => writes.kept_after here.registers fun _ => write_not_mem_reads)
    (fun line => ?_) onward
  · rcases List.mem_append.mp member with read | written
    · exact reads.allowed m here.registers inside access read
    · exact writes.allowed m here.registers inside access written
  · rw [execute_movl (reads.value m.next here.registers here.memory)
      (writes.effect m.next here.registers here.memory), ← here.flags]
    rfl

theorem At.arithmetic {operation : Arithmetic}
    (here : At P blocks origin (.instruction mnemonic [a, b] :: rest) r memory flags m)
    (known : Mnemonic.ofName? mnemonic = some (.arithmetic operation))
    (plain : isBranch mnemonic = false) (source : P.layout.operand a = .ok x)
    (target : P.layout.operand b = .ok y) (right : Readable P blocks r memory x w)
    (left : Readable P blocks r memory y v)
    (writes : Writable P blocks r memory y (operation.apply v w).1 after changed)
    (onward : ∀ n, At P blocks origin rest after changed (operation.apply v w).2 n →
      Leads P.Watch goal blocks n) : Leads P.Watch goal blocks m := by
  have inside := here.ready.inside
  refine here.execute (instruction_two known rfl plain source target) (by simp) (by simp)
    (fun _ line access member => ?_) (fun line block member => ?_) (fun line => ?_) onward
  · rcases List.mem_append.mp member with read | later
    · exact right.allowed m here.registers inside access read
    · rcases List.mem_append.mp later with read | written
      · exact left.allowed m here.registers inside access read
      · exact writes.allowed m here.registers inside access written
  · have split : Instr.accesses ⟨.arithmetic operation, [x, y], line⟩ m =
        (x.accesses m 4 false ++ y.accesses m 4 false) ++ y.accesses m 4 true :=
      (List.append_assoc ..).symm
    rw [split]
    refine writes.kept_after here.registers (fun address found => ?_) member
    rcases List.mem_append.mp found with read | read
    · exact write_not_mem_reads read
    · exact write_not_mem_reads read
  · exact execute_arithmetic (right.value m.next here.registers here.memory)
      (left.value m.next here.registers here.memory)
      (writes.effect { m.next with flags := (operation.apply v w).2 } here.registers here.memory)

theorem At.cmpl
    (here : At P blocks origin (.instruction "cmpl" [a, b] :: rest) r memory flags m)
    (source : P.layout.operand a = .ok x) (target : P.layout.operand b = .ok y)
    (right : Readable P blocks r memory x w) (left : Readable P blocks r memory y v)
    (onward : ∀ n, At P blocks origin rest r memory (.ofSub v w) n →
      Leads P.Watch goal blocks n) : Leads P.Watch goal blocks m := by
  have inside := here.ready.inside
  refine here.execute (instruction_two rfl rfl rfl source target) (by decide) (by decide)
    (fun _ line access member => ?_) (fun line block member => .inr fun found => ?_)
    (fun line => ?_) onward
  · rcases List.mem_append.mp member with read | read
    · exact right.allowed m here.registers inside access read
    · exact left.allowed m here.registers inside access read
  · rcases List.mem_append.mp found with read | read
    · exact write_not_mem_reads read
    · exact write_not_mem_reads read
  · rw [execute_cmpl (right.value m.next here.registers here.memory)
      (left.value m.next here.registers here.memory), ← here.registers, ← here.memory]
    rfl

/-- A push of a word that is not in memory. -/
theorem At.pushl (here : At P blocks origin (.instruction "pushl" [a] :: rest) r memory flags m)
    (closed : blocks.Sealed) (source : P.layout.operand a = .ok x)
    (reads : Readable P blocks r memory x v) (quiet : x.address? m = none)
    (onward : ∀ n, At P blocks origin rest (r.set .esp (r.esp - 4))
      (memory.writeWord (r.esp - 4) v) flags n → Leads P.Watch goal blocks n) :
    Leads P.Watch goal blocks m := by
  obtain ⟨low, high⟩ := here.inside
  have four : (4 : Word).toNat = 4 := rfl
  simp only [heapLimit, memorySize, stackSize] at low high
  have place : (r.esp - 4).toNat = r.esp.toNat - 4 := Word.toNat_sub_of_le (by omega)
  have top : r.esp = m.registers.esp := by rw [here.registers]
  have fine : accessible (r.esp - 4) 4 = true :=
    accessible_stack (by simp only [heapLimit, memorySize, stackSize]; omega)
      (by simp only [memorySize]; omega)
  refine here.execute (instruction_one rfl (by decide) rfl source) (by decide) (by decide)
    (fun there line access member => ?_) (fun line block member => .inl (closed block member))
    (fun line => ?_) onward
  · have only : access = m.pushAccess := by
      simpa [Instr.accesses, Instr.operandAccesses, Operand.accesses, quiet] using member
    subst only
    have floor : m.stackFloor = m.registers.esp - 4 := by rw [stackFloor, there, if_pos rfl]
    refine .stack (by rw [floor]; exact le_refl _) ?_
    change (m.registers.esp - 4).toNat + 4 ≤ memorySize
    rw [← top, place]
    simp only [memorySize]
    omega
  · rw [execute_pushl (reads.value m.next here.registers here.memory)
      (by rw [next_registers, ← top]; exact fine), ← here.registers, ← here.memory, ← here.flags]
    rfl

/-- A pop into a register. -/
theorem At.popl {s : Register}
    (here : At P blocks origin (.instruction "popl" [a] :: rest) r memory flags m)
    (target : P.layout.operand a = .ok (.full s)) (high : r.esp.toNat + 4 ≤ memorySize)
    (onward : ∀ n, At P blocks origin rest ((r.set .esp (r.esp + 4)).set s (memory.readWord r.esp))
      memory flags n → Leads P.Watch goal blocks n) : Leads P.Watch goal blocks m := by
  obtain ⟨low, _⟩ := here.inside
  have inside := here.ready.inside
  have top : r.esp = m.registers.esp := by rw [here.registers]
  have only (line : Int) : Instr.accesses ⟨.popl, [.full s], line⟩ m =
      [⟨m.registers.esp, 4, false⟩] := by
    simp [Instr.accesses, Instr.operandAccesses, Operand.accesses, Operand.address?,
      Operand.register]
  refine here.execute (instruction_one rfl (by decide) rfl target) (by decide) (by decide)
    (fun _ line access member => ?_) (fun line block _ => .inr (by simp [only])) (fun line => ?_)
    onward
  · rw [only, List.mem_singleton] at member
    subst member
    exact permitted_stack inside (le_refl _) (by rw [← top]; exact high)
  · rw [execute_popl (by rw [next_registers, ← top]; exact accessible_stack (by omega) high),
      ← here.registers, ← here.memory, ← here.flags]
    rfl

section Silent

variable {operands : List Assembly.Operand} {k : Mnemonic} {decoded : List Operand}
  {changedFlags : Flags}

/-- An instruction that touches no memory. -/
theorem At.silent
    (here : At P blocks origin (.instruction mnemonic operands :: rest) r memory flags m)
    (decodes : ∀ number, P.layout.instruction number ⟨mnemonic, operands⟩ =
      .ok ⟨k, decoded, number⟩) (plain : k ≠ .call) (stays : k ≠ .ret)
    (quiet : ∀ line, Instr.accesses ⟨k, decoded, line⟩ m = [])
    (done : ∀ line, perform (Machine.execute ⟨k, decoded, line⟩) m.next =
      (.ok (), { m.next with registers := after, flags := changedFlags }))
    (onward : ∀ n, At P blocks origin rest after memory changedFlags n →
      Leads P.Watch goal blocks n) : Leads P.Watch goal blocks m :=
  here.execute decodes plain stays (fun _ line => by simp [quiet line])
    (fun line => by simp [quiet line]) (fun line => by rw [done line, ← here.memory]; rfl) onward

end Silent

/-- The flags after a product. -/
def productFlags (flags : Flags) (v w : Word) : Flags := flags.withProduct (v.toInt * w.toInt)

/-- The accumulator and its extension after a product. -/
def product (r : Registers) (w : Word) : Registers :=
  (r.set .eax (.ofInt (r.eax.toInt * w.toInt))).set .edx
    (.ofInt (r.eax.toInt * w.toInt / 0x100000000))

theorem At.imull (here : At P blocks origin (.instruction "imull" [a] :: rest) r memory flags m)
    (source : P.layout.operand a = .ok x) (reads : Readable P blocks r memory x w)
    (onward : ∀ n, At P blocks origin rest (product r w) memory (productFlags flags r.eax w) n →
      Leads P.Watch goal blocks n) : Leads P.Watch goal blocks m := by
  have only (line : Int) : Instr.accesses ⟨.imull, [x], line⟩ m = x.accesses m 4 false :=
    List.append_nil _
  refine here.execute (instruction_one rfl (by decide) rfl source) (by decide) (by decide)
    (fun _ line access member => ?_) (fun line block _ => .inr ?_) (fun line => ?_) onward
  · rw [only] at member
    exact reads.allowed m here.registers here.ready.inside access member
  · rw [only]
    exact write_not_mem_reads
  · rw [execute_imull (reads.value m.next here.registers here.memory), ← here.registers,
      ← here.memory, ← here.flags]
    rfl

/-- The sign of the accumulator fills its extension. -/
theorem At.cdq (here : At P blocks origin (.instruction "cdq" [] :: rest) r memory flags m)
    (onward : ∀ n, At P blocks origin rest
      (r.set .edx (if r.eax.isNegative then 0xFFFFFFFF else 0)) memory flags n →
        Leads P.Watch goal blocks n) : Leads P.Watch goal blocks m := by
  have decodes (number : Nat) :
      P.layout.instruction number ⟨"cdq", []⟩ = .ok ⟨.cdq, [], number⟩ := rfl
  exact here.silent decodes (by decide) (by decide) (fun _ => rfl)
    (fun line => by rw [← here.registers, ← here.flags]; rfl) onward

theorem At.negl (here : At P blocks origin (.instruction "negl" [Codegen.eax] :: rest) r memory
      flags m)
    (onward : ∀ n, At P blocks origin rest (r.set .eax (-r.eax)) memory (.ofSub 0 r.eax) n →
      Leads P.Watch goal blocks n) : Leads P.Watch goal blocks m := by
  have decodes : ∀ number, P.layout.instruction number ⟨"negl", [Codegen.eax]⟩ =
      .ok ⟨.negl, [.full .eax], number⟩ := instruction_one rfl (by decide) rfl rfl
  exact here.silent decodes (by decide) (by decide) (fun _ => rfl)
    (fun line => by rw [← here.registers]; rfl) onward

theorem At.leal {s base : Register} {offset : Int32}
    (here : At P blocks origin (.instruction "leal" [a, b] :: rest) r memory flags m)
    (source : P.layout.operand a = .ok (.at offset base))
    (target : P.layout.operand b = .ok (.full s))
    (onward : ∀ n, At P blocks origin rest (r.set s (r.get base + offset.toUInt32)) memory flags n →
      Leads P.Watch goal blocks n) : Leads P.Watch goal blocks m :=
  here.silent (instruction_two rfl rfl rfl source target) (by decide) (by decide) (fun _ => rfl)
    (fun line => by rw [← here.registers, ← here.flags]; rfl) onward

theorem At.shll {count : Int32} {s : Register}
    (here : At P blocks origin (.instruction "shll" [a, b] :: rest) r memory flags m)
    (source : P.layout.operand a = .ok (.immediate count))
    (target : P.layout.operand b = .ok (.full s))
    (onward : ∀ n, At P blocks origin rest (r.set s (r.get s <<< (count.toUInt32 &&& 31))) memory
      (flags.withResult (r.get s <<< (count.toUInt32 &&& 31))) n → Leads P.Watch goal blocks n) :
    Leads P.Watch goal blocks m :=
  here.silent (instruction_two rfl rfl rfl source target) (by decide) (by decide) (fun _ => rfl)
    (fun line => by rw [← here.registers, ← here.flags]; rfl) onward

/-- The low byte of the accumulator tells whether a comparison holds. -/
theorem At.set {comparison : Comparison}
    (here : At P blocks origin (.instruction mnemonic [Codegen.al] :: rest) r memory flags m)
    (known : Mnemonic.ofName? mnemonic = some (.set comparison))
    (plain : isBranch mnemonic = false)
    (onward : ∀ n, At P blocks origin rest (r.set .eax ((r.eax &&& ~~~0xFF) |||
      ((if flags.compares comparison then 1 else 0 : UInt8).toUInt32 &&& 0xFF))) memory flags n →
      Leads P.Watch goal blocks n) : Leads P.Watch goal blocks m := by
  have decodes : ∀ number, P.layout.instruction number ⟨mnemonic, [Codegen.al]⟩ =
      .ok ⟨.set comparison, [.register .al], number⟩ :=
    instruction_one known (by simp [Mnemonic.arity]) plain rfl
  exact here.silent decodes (by simp) (by simp) (fun _ => rfl)
    (fun line => by rw [← here.registers, ← here.flags]; rfl) onward

theorem At.movzbl_al
    (here : At P blocks origin (.instruction "movzbl" [Codegen.al, Codegen.eax] :: rest) r memory
      flags m)
    (onward : ∀ n, At P blocks origin rest (r.set .eax (r.eax &&& 0xFF).toUInt8.toUInt32) memory
      flags n → Leads P.Watch goal blocks n) : Leads P.Watch goal blocks m :=
  here.silent (instruction_two rfl rfl rfl rfl rfl) (by decide) (by decide) (fun _ => rfl)
    (fun line => by rw [← here.registers, ← here.flags]; rfl) onward

section Bytes

variable {base : Register} {offset : Int32} {place : Word}

/-- A byte of memory fills a register. -/
theorem At.movzbl {s : Register}
    (here : At P blocks origin (.instruction "movzbl" [a, b] :: rest) r memory flags m)
    (source : P.layout.operand a = .ok (.at offset base))
    (target : P.layout.operand b = .ok (.full s))
    (address : r.get base + offset.toUInt32 = place) (fine : accessible place 1 = true)
    (allowed : Permitted P.constants blocks m ⟨place, 1, false⟩)
    (onward : ∀ n, At P blocks origin rest (r.set s (memory.read place).toUInt32) memory flags n →
      Leads P.Watch goal blocks n) : Leads P.Watch goal blocks m := by
  have only (line : Int) : Instr.accesses ⟨.movzbl, [.at offset base, .full s], line⟩ m =
      (Operand.at offset base).accesses m 1 false := List.append_nil _
  refine here.execute (instruction_two rfl rfl rfl source target) (by decide) (by decide)
    (fun _ line access member => ?_) (fun line block _ => .inr ?_) (fun line => ?_) onward
  · rw [only, mem_accesses_at here.registers address] at member
    exact member ▸ allowed
  · rw [only]
    exact write_not_mem_reads
  · have address : m.next.registers.get base + offset.toUInt32 = place := by
      rw [next_registers, here.registers, address]
    rw [execute_movzbl (readByte_memory address fine) write_register, next_registers,
      next_memory, ← here.registers, ← here.memory, ← here.flags]
    rfl

/-- The low byte of the accumulator is written to memory. -/
theorem At.movb
    (here : At P blocks origin (.instruction "movb" [Codegen.al, b] :: rest) r memory flags m)
    (closed : blocks.Sealed) (target : P.layout.operand b = .ok (.at offset base))
    (address : r.get base + offset.toUInt32 = place) (fine : accessible place 1 = true)
    (allowed : Permitted P.constants blocks m ⟨place, 1, true⟩)
    (onward : ∀ n, At P blocks origin rest r (memory.write place r.eax.toUInt8) flags n →
      Leads P.Watch goal blocks n) : Leads P.Watch goal blocks m := by
  have source : P.layout.operand Codegen.al = .ok (.register .al) := rfl
  refine here.execute (instruction_two rfl rfl rfl source target) (by decide) (by decide)
    (fun _ line access member => ?_) (fun line block member => .inl (closed block member))
    (fun line => ?_) onward
  · have member : access ∈ (Operand.at offset base).accesses m 1 true := member
    rw [mem_accesses_at here.registers address] at member
    exact member ▸ allowed
  · have address : m.next.registers.get base + offset.toUInt32 = place := by
      rw [next_registers, here.registers, address]
    have low : perform (Exec.readByte (.register .al)) m.next =
        (.ok m.registers.eax.toUInt8, m.next) :=
      congrArg (fun b => (Except.ok b, m.next)) (Word.toUInt8_and m.registers.eax)
    rw [execute_movb low (writeByte_memory address fine), ← here.registers, ← here.memory,
      ← here.flags]
    rfl

end Bytes

section Branches

variable {index : Nat} {operands : List Assembly.Operand} {k : Mnemonic} {o : Operand}

/-- A branch that is taken. -/
theorem At.goto
    (here : At P blocks origin (.instruction mnemonic operands :: rest) r memory flags m)
    (decodes : ∀ number, P.layout.instruction number ⟨mnemonic, operands⟩ = .ok ⟨k, [o], number⟩)
    (plain : k ≠ .call) (stays : k ≠ .ret)
    (quiet : ∀ line, Instr.accesses ⟨k, [o], line⟩ m = [])
    (done : ∀ line, perform (Machine.execute ⟨k, [o], line⟩) m.next =
      (.ok (), { m.next with pc := index }))
    (placed : Assembly.Placed P.layout P.text index code) (shown : P.Shows index code)
    (level : ∀ {k : Nat}, P.layout.label? (Codegen.localLabel k) = some index → P.Level r)
    (onward : ∀ n, At P blocks origin code r memory flags n → m.steps < n.steps →
      Leads P.Watch goal blocks n) : Leads P.Watch goal blocks m := by
  obtain ⟨line, fetched⟩ := here.fetched decodes
  have ready := here.ready
  have stepped : m.step = (.ok (), { m.next with pc := index }) := by
    rw [step_eq ready.running fetched, done line]
  have tracked : blocks.track m = blocks := by
    refine Ledger.track_eq (by simp [routine?_of_plain fetched plain]) fun block _ => .inr ?_
    intro found
    have member := mem_accesses fetched found
    rw [quiet line] at member
    cases member
  have watched := here.watch fetched stays (fun calls => absurd calls plain)
    (safe_of_allowed fetched (by simp [quiet line]))
  have registers : m.next.registers = r := here.registers
  refine .next ⟨ready.running, watched, stepped, tracked⟩ (onward _
    ⟨⟨ready.text, ready.running, ready.status, ready.inside, ready.tidy⟩,
      ⟨index, rfl, placed, shown, fun known => .inr ?_⟩, here.registers, here.memory, here.flags,
      here.heap, here.sink⟩ (Nat.lt_succ_self _))
  rw [registers]
  exact level known

/-- A jump goes to its label. -/
theorem At.jump (here : At P blocks origin (Codegen.jump name ++ rest) r memory flags m)
    (labelled : P.Labelled name code) (may : P.MayJump name r)
    (onward : ∀ n, At P blocks origin code r memory flags n → m.steps < n.steps →
      Leads P.Watch goal blocks n) : Leads P.Watch goal blocks m := by
  obtain ⟨index, known, placed, shown⟩ := labelled
  exact At.goto here (instruction_branch rfl rfl rfl (target_of_label known)) (by decide)
    (by decide) (fun _ => rfl) (fun _ => rfl) placed shown (may known) onward

/-- A conditional branch goes to its label if the condition holds. -/
theorem At.branch {condition : Condition}
    (here : At P blocks origin (.instruction mnemonic [Codegen.destination name] :: rest) r memory
      flags m)
    (known : Mnemonic.ofName? mnemonic = some (.jump condition))
    (branch : isBranch mnemonic = true) (labelled : P.Labelled name code) (may : P.MayJump name r)
    (taken : flags.holds condition = true → ∀ n, At P blocks origin code r memory flags n →
      Leads P.Watch goal blocks n)
    (passed : flags.holds condition = false → ∀ n, At P blocks origin rest r memory flags n →
      Leads P.Watch goal blocks n) : Leads P.Watch goal blocks m := by
  obtain ⟨index, there, placed, shown⟩ := labelled
  have decodes := instruction_branch known rfl branch (target_of_label there)
  have opened (line : Int) :
      perform (Machine.execute ⟨.jump condition, [.target name index], line⟩) m.next =
        perform (if flags.holds condition then Exec.setPc index else pure ()) m.next := by
    rw [← here.flags]
    rfl
  cases holds : flags.holds condition with
  | true =>
    exact here.goto decodes (by simp) (by simp) (fun _ => rfl)
      (fun line => by rw [opened, holds]; rfl) placed shown (may there) fun n there _ =>
        taken holds n there
  | false =>
    exact here.silent decodes (by simp) (by simp) (fun _ => rfl)
      (fun line => by rw [opened, holds, ← here.registers, ← here.flags]; rfl) (passed holds)

end Branches

end Instructions

end Onepass.Simulation
