import Onepass.Proofs.Machine.Formats
import Onepass.Proofs.Simulation.Calls
import Onepass.Proofs.Simulation.Data

/-! Printing a value. The format and the value are pushed, and the routine that prints them reads
the format and, for a string, its bytes up to the first zero byte. -/
namespace Onepass.Simulation

open Assembly (Code)
open Interpreter (Value State)
open Machine

/-- The bytes of a format that shows one value by a conversion. -/
def formatOf (letter : Char) : Bytes := [Bytes.code '%', Bytes.code letter, 10]

section Routine

variable {m : Machine} {f v : Word} {letter : Char}

/-- The routine that prints a value by a format: it converts the value and writes it with the end of
the line. -/
theorem perform_printf (plain : Bytes.code letter ≠ Bytes.code '%')
    (first : Routine.argument m 0 = .ok f) (second : Routine.argument m 1 = .ok v)
    (read : m.readText f = .ok (formatOf letter)) :
    perform Routine.printf.run m =
      match Routine.convert m (Bytes.code letter) v with
      | .error fault => (.error fault, m)
      | .ok text =>
        let after := { m with
          sink := m.sink.write (text ++ [10])
          registers := m.registers.set .eax (m.sink.accepted (text ++ [10])).length.toUInt32 }
        if m.sink.fits (text ++ [10]) then (.ok (), after) else (.error .sinkFull, after) := by
  have opened : (do m.readText (← Routine.argument m 0) : Except Fault Bytes) =
      .ok (formatOf letter) := by
    rw [first]
    exact read
  have line : ¬ (10 : UInt8) = Bytes.code '%' := by decide
  have expanded : Routine.expand m 1 (formatOf letter) =
      (Routine.convert m (Bytes.code letter) v).map (· ++ [10]) := by
    simp only [formatOf, Routine.expand, if_true, if_neg plain, if_neg line, second, ok_bind]
    cases Routine.convert m (Bytes.code letter) v <;> rfl
  rw [Machine.perform_printf, opened]
  dsimp only
  rw [expanded]
  cases Routine.convert m (Bytes.code letter) v with
  | error fault => rfl
  | ok text =>
    simp only [Except.map]
    cases m.sink.fits (text ++ [10]) <;> rfl

/-- Printing reads its arguments and the format, and then the text of a string. -/
theorem accesses_printf (plain : Bytes.code letter ≠ Bytes.code '%')
    (first : m.memory.readWord (Routine.argumentAddress m 0) = f)
    (second : m.memory.readWord (Routine.argumentAddress m 1) = v)
    (read : m.readText f = .ok (formatOf letter)) :
    Routine.accesses m .printf =
      (Routine.argumentAccess m 0 :: m.readAccesses f ++ [Routine.argumentAccess m 1]) ++
        (if Bytes.code letter = Bytes.code 's' then m.readAccesses v else []) := by
  have line : ¬ (10 : UInt8) = Bytes.code '%' := by decide
  simp only [Routine.accesses, first, read, Except.toOption, Option.getD_some, formatOf,
    Routine.expandAccesses, if_true, if_neg plain, if_neg line, second, List.append_nil,
    List.cons_append, List.append_assoc, List.nil_append]

/-- Nothing is accessed after an access that fails. -/
theorem mem_upToFault_of_fault {front back : List Access} {bad a : Access}
    (fails : accessible bad.address bad.size = false)
    (member : a ∈ upToFault (front ++ bad :: back)) : a ∈ front ∨ a = bad := by
  induction front with
  | nil => simpa [upToFault, fails] using member
  | cons first front ih =>
    simp only [List.cons_append, upToFault, List.mem_cons] at member
    rcases member with rfl | later
    · exact .inl (List.mem_cons_self ..)
    · split at later
      · exact (ih later).imp_left (List.mem_cons_of_mem _)
      · cases later

end Routine

section Texts

variable {P : Setting} {s : State} {blocks : Ledger} {m : Machine} {mark a : Word}
  {bytes front text back : Bytes}

/-- A text of the data is read up to its end. -/
theorem Stored.readText (stored : Stored P s blocks m.memory mark) (holds : P.Holds a bytes)
    (high : P.dataEnd ≤ heapLimit) (split : bytes = front ++ text ++ 0 :: back)
    (nonzero : ∀ b ∈ text, b ≠ 0) :
    m.readText (a + front.length.toUInt32) = .ok text ∧
      ∀ access ∈ m.readAccesses (a + front.length.toUInt32), ∃ i ≤ text.length,
        access.address.toNat = a.toNat + front.length + i ∧ access.size = 1 ∧
          access.isWrite = false := by
  have length : bytes.length = front.length + text.length + 1 + back.length := by
    simp only [split, List.length_append, List.length_cons]
    omega
  have above := holds.above
  have below := holds.below
  have start := holds.toNat_add high (show front.length ≤ _ by omega)
  have address (i : Nat) : a + front.length.toUInt32 + i.toUInt32 =
      a + (front.length + i).toUInt32 := by simp [UInt32.add_assoc]
  have place {i : Nat} (bound : i ≤ text.length) :
      (a + front.length.toUInt32 + i.toUInt32).toNat = a.toNat + front.length + i := by
    rw [address, holds.toNat_add high (by omega), Nat.add_assoc]
  have limit : heapLimit ≤ memorySize := by decide
  have has : HasText m (a + front.length.toUInt32) text := by
    refine ⟨nonzero, fun i bound => ?_, fun {i b} found => ?_⟩
    · have there := place bound
      exact accessible_of (by omega) (by omega)
    · rw [address]
      refine stored.read_data holds high ?_
      have bound := (List.getElem?_eq_some_iff.mp found).1
      have regroup : bytes = front ++ ((text ++ [0]) ++ back) := by simp [split]
      rw [regroup, List.getElem?_append_right (by omega), Nat.add_sub_cancel_left,
        List.getElem?_append_left bound]
      exact found
  obtain ⟨read, inside⟩ := has.readTextWithin
    (show text.length < memorySize + 1 - (a + front.length.toUInt32).toNat by omega)
  refine ⟨read, fun access member => ?_⟩
  obtain ⟨i, bound, rfl⟩ := inside access member
  exact ⟨i, bound, place bound, rfl, rfl⟩

/-- A string ends at its first zero byte or at the one that follows it. -/
private theorem append_zero (contents : Bytes) :
    ∃ back, contents ++ [0] = contents.takeWhile (· ≠ 0) ++ 0 :: back := by
  induction contents with
  | nil => exact ⟨[], rfl⟩
  | cons b rest ih =>
    obtain ⟨back, same⟩ := ih
    by_cases zero : b = 0
    · exact ⟨rest ++ [0], by simp [zero]⟩
    · exact ⟨back, by simpa [zero] using same⟩

/-- The text of a format is read from its constant. -/
theorem Stored.readFormat {name : Bytes} {letter : Char} (valid : P.Valid)
    (stored : Stored P s blocks m.memory mark) (known : (name, formatOf letter) ∈ formats)
    (nonzero : Bytes.code letter ≠ 0) (placed : P.layout.symbol? name = some a) :
    m.readText a = .ok (formatOf letter) ∧
      ∀ access ∈ m.readAccesses a, Permitted P.constants blocks m access := by
  obtain ⟨_, found, holds⟩ := valid.format known
  obtain rfl := Option.some.inj (placed.symm.trans found)
  have start : a + ([] : Bytes).length.toUInt32 = a := UInt32.add_zero a
  have all : ∀ b ∈ formatOf letter, b ≠ 0 := by
    simp only [formatOf, List.mem_cons, List.not_mem_nil, or_false]
    rintro b (rfl | rfl | rfl)
    · decide
    · exact nonzero
    · decide
  have split : formatOf letter ++ [0] = [] ++ formatOf letter ++ [0] := rfl
  obtain ⟨read, inside⟩ := stored.readText holds valid.high split all
  rw [start] at read inside
  refine ⟨read, fun access member => ?_⟩
  obtain ⟨i, bound, place, size, reads⟩ := inside access member
  have length : (formatOf letter).length = 3 := rfl
  rw [List.length_nil] at place
  exact .constant ⟨a, 4⟩ (mem_constants_format known placed) reads (by simp only; omega)
    (by simp only; omega)

/-- The bytes of a string up to the first zero byte are read from its constants. -/
theorem Stored.readString {index : Nat} {contents : Bytes} (valid : P.Valid)
    (stored : Stored P s blocks m.memory mark) (known : P.strings[index]? = some contents)
    (placed : P.layout.symbol? (Codegen.Builder.stringLabel index) = some a) :
    m.readText (a + 4) = .ok (contents.takeWhile (· ≠ 0)) ∧
      ∀ access ∈ m.readAccesses (a + 4), Permitted P.constants blocks m access := by
  obtain ⟨_, found, holds⟩ := valid.string known
  obtain rfl := Option.some.inj (placed.symm.trans found)
  obtain ⟨back, split⟩ := append_zero contents
  have whole : Word.bytes contents.length.toUInt32 ++ contents ++ [0] =
      Word.bytes contents.length.toUInt32 ++ contents.takeWhile (· ≠ 0) ++ 0 :: back := by
    rw [List.append_assoc, split, ← List.append_assoc]
  have length : (Word.bytes contents.length.toUInt32).length = 4 := rfl
  obtain ⟨read, inside⟩ := stored.readText holds valid.high whole fun b member => by
    simpa using List.mem_takeWhile_imp member
  refine ⟨read, fun access member => ?_⟩
  obtain ⟨i, bound, place, size, reads⟩ := inside access member
  have least : (contents.takeWhile (· ≠ 0)).length ≤ contents.length :=
    (List.takeWhile_sublist _).length_le
  have total : (Word.bytes contents.length.toUInt32 ++ contents ++ [0]).length =
      4 + contents.length + 1 := by
    simp only [List.length_append, length, List.length_cons, List.length_nil]
  have four : (a + 4).toNat = a.toNat + 4 :=
    holds.toNat_add valid.high (show 4 ≤ _ by omega)
  rw [length] at place
  by_cases last : i < contents.length
  · refine .constant ⟨a + 4, contents.length⟩ (mem_constants_string known placed (by simp)) reads
      (by simp only [four]; omega) ?_
    simp only [four]
    omega
  · have stop : (a + 4 + contents.length.toUInt32).toNat = a.toNat + 4 + contents.length := by
      have joined : a + 4 + contents.length.toUInt32 = a + (4 + contents.length).toUInt32 := by
        simp [UInt32.add_assoc]
      rw [joined, holds.toNat_add valid.high (by omega), Nat.add_assoc]
    refine .constant ⟨a + 4 + contents.length.toUInt32, 1⟩
      (mem_constants_string known placed (by simp)) reads (by simp only [stop]; omega) ?_
    simp only [stop]
    omega

end Texts

section Printing

variable {P : Setting} {s : State} {blocks : Ledger} {words : List Word} {rest : Code}
  {goal : Ledger → Machine → Prop} {m : Machine} {name text : Bytes} {letter : Char}

/-- Memory does not know what was written out. -/
theorem Stored.write {memory : Memory} {mark : Word} (stored : Stored P s blocks memory mark)
    (output : Bytes) : Stored P { s with output } blocks memory mark :=
  ⟨stored.data, stored.slot, stored.caller, stored.back, stored.count, stored.cell, stored.tidy,
    stored.low, stored.aligned, stored.room, stored.fresh⟩

/-- Where the value and the format are pushed for the routine that prints them. What the routine
accesses besides a text is permitted. -/
structure Printing (P : Setting) (blocks : Ledger) (m : Machine) (letter : Char) (rest : Code)
    (r : Registers) (memory : Memory) (flags : Flags) (o : Machine) : Prop where
  here : At P blocks m (.instruction "call"
    [Codegen.destination (P.platform.symbol Routine.printf.name)] ::
      release P.platform 2 :: rest) r memory flags o
  prepared : ∃ f, Prepared P.platform 2 m [f, m.registers.eax] r memory
  run : perform Routine.printf.run o.next =
    match Routine.convert o.next (Bytes.code letter) m.registers.eax with
    | .error fault => (.error fault, o.next)
    | .ok text =>
      let after := { o.next with
        sink := o.next.sink.write (text ++ [10])
        registers := r.set .eax (o.next.sink.accepted (text ++ [10])).length.toUInt32 }
      if o.next.sink.fits (text ++ [10]) then (.ok (), after) else (.error .sinkFull, after)
  reads : ∃ front, (∀ a ∈ front, Permitted P.constants blocks o a) ∧
    Routine.accesses o .printf = front ++
      (if Bytes.code letter = Bytes.code 's' then o.readAccesses m.registers.eax else [])

theorem leads_printing (valid : P.Valid) (matched : Matches P s blocks words m)
    (before : Before P (Codegen.printFormat P.platform name ++ rest) m)
    (known : (name, formatOf letter) ∈ formats)
    (plain : Bytes.code letter ≠ Bytes.code '%' ∧ Bytes.code letter ≠ 0)
    (onward : ∀ r memory flags o, Printing P blocks m letter rest r memory flags o →
      Stored P s blocks memory m.heap → Leads P.Watch goal blocks o) :
    Leads P.Watch goal blocks m := by
  simp only [Codegen.printFormat, List.append_assoc, List.cons_append, List.nil_append] at before
  have closed := matched.stored.sealed
  have high := matched.ready.inside.2
  obtain ⟨f, placed, _⟩ := valid.format known
  have source : P.layout.operand (Codegen.address name) = .ok (.immediate f.toInt32) := by
    simp only [Codegen.address, Assembly.Layout.operand, Assembly.Layout.value, placed]
    rfl
  refine At.prepare 2 matched.ready before fun r memory _ o there prepared => ?_
  have value : r.get .eax = m.registers.eax := prepared.other (by decide) (by decide)
  refine there.argument prepared closed high rfl (readable_register .eax) rfl
    fun r memory o there prepared => ?_
  rw [value] at prepared
  refine there.argument prepared closed high source (readable_immediate f.toInt32) rfl
    fun r memory o there prepared => ?_
  have stored := prepared.stored matched matched.stored
  have now : Stored P s blocks o.memory m.heap := there.memory ▸ stored
  have next : Stored P s blocks o.next.memory m.heap := now
  obtain ⟨given, first, readFirst⟩ := prepared.argument 0 there high rfl
  obtain ⟨value, second, readSecond⟩ := prepared.argument 1 there high rfl
  obtain ⟨format, inside⟩ := now.readFormat valid known plain.2 placed
  refine onward r memory _ o ⟨there, ⟨f, prepared⟩, ?_, _, ?_,
    accesses_printf plain.1 first second format⟩ stored
  · have registers : r = o.next.registers := there.registers.symm
    rw [registers]
    exact perform_printf plain.1 given value (next.readFormat valid known plain.2 placed).1
  · intro a member
    simp only [List.mem_append, List.mem_cons, List.not_mem_nil, or_false] at member
    rcases member with (rfl | text) | rfl
    · exact readFirst _
    · exact inside a text
    · exact readSecond _

/-- A value is printed, unless the sink has no room for it. -/
theorem leads_print (valid : P.Valid) (matched : Matches P s blocks words m)
    (before : Before P (Codegen.printFormat P.platform name ++ rest) m)
    (known : (name, formatOf letter) ∈ formats)
    (plain : Bytes.code letter ≠ Bytes.code '%' ∧ Bytes.code letter ≠ 0)
    (converts : ∀ o : Machine, Stored P s blocks o.memory m.heap →
      Routine.convert o (Bytes.code letter) m.registers.eax = .ok text ∧
        (Bytes.code letter = Bytes.code 's' → ∀ a ∈ o.readAccesses m.registers.eax,
          Permitted P.constants blocks o a))
    (onward : ∀ n, Matches P { s with output := s.output ++ text ++ "\n" } blocks words n →
      Before P rest n → Leads P.Watch goal blocks n) : Leads P.Watch goal blocks m := by
  refine leads_printing valid matched before known plain
    fun r memory flags o printing stored => ?_
  obtain ⟨there, ⟨f, prepared⟩, run, front, inside, all⟩ := printing
  have now : Stored P s blocks o.memory m.heap := there.memory ▸ stored
  have next : Stored P s blocks o.next.memory m.heap := now
  rw [(converts o.next next).1] at run
  have allowed : ∀ a ∈ Routine.accesses o .printf, Permitted P.constants blocks o a := by
    intro a member
    rw [all] at member
    rcases List.mem_append.mp member with other | text
    · exact inside a other
    · split at text
      · rename_i string
        exact (converts o now).2 string a text
      · cases text
  have heap : o.next.heap = m.heap := there.heap
  have sink : o.next.sink = m.sink := there.sink
  rw [sink] at run
  by_cases fits : m.sink.fits (text ++ [10]) = true
  · simp only [if_pos fits] at run
    refine At.call .printf valid (by decide) there (prepared.aligned rfl) allowed run (fun calls _ => ?_)
      matched.ready.tidy fun p mark sink there => ?_
    · rw [Ledger.track_of_sealed matched.stored.sealed]
      simp [allocation?, calls]
    refine At.dropArguments prepared there fun flags q there =>
      onward q ⟨there.ready, ?_, ?_, ?_, ?_⟩ there.before
    · have base : r.get .ebp = m.registers.ebp := prepared.other (by decide) (by decide)
      rw [there.registers]
      exact base.trans matched.base
    · rw [there.registers, there.memory]
      exact prepared.stack matched
    · rw [there.memory, there.heap, mark, heap]
      exact stored.write _
    · rw [there.sink, sink, Sink.written_write, Sink.accepted_of_fits fits, matched.output]
      simp only [List.append_assoc]
      rfl
  · simp only [if_neg fits] at run
    obtain ⟨i, fetched, call, _, same, opened⟩ := there.called .printf valid (by decide)
    have full : o.step.1 = .error ⟨.sinkFull, some i⟩ := by
      rw [step_eq there.ready.running fetched, opened, run]
    have limited : o.sink.room ≠ none := by
      have same : o.sink = m.sink := sink
      rw [same]
      exact fun unlimited => fits (by simp [Sink.fits, unlimited])
    exact .refused there.ready.running
      (there.watch fetched (by rw [call]; decide) (fun _ => prepared.aligned rfl)
        (safe_of_allowed fetched (by rw [same]; exact allowed))) _ full limited

/-- A null string cannot be printed: its first byte lies below the data. -/
theorem leads_printNull (valid : P.Valid) (matched : Matches P s blocks words m)
    (before : Before P (Codegen.printFormat P.platform Codegen.formatString ++ rest) m)
    (pointer : m.registers.eax = 4)
    (onward : ∀ n, Fails P s .null blocks n → Leads P.Watch goal blocks n) :
    Leads P.Watch goal blocks m := by
  have known : (Codegen.formatString, formatOf 's') ∈ formats := by decide
  refine leads_printing valid matched before known (by decide)
    fun r memory flags o printing _ => onward o ?_
  obtain ⟨there, ⟨_, prepared⟩, run, front, inside, all⟩ := printing
  have below : (4 : Word) < Assembly.dataBase := by decide
  have fault : accessible 4 1 = false := by decide
  have fuel : memorySize + 1 - (4 : Word).toNat = memorySize - 4 + 1 := by decide
  have read : o.next.readText 4 = .error (.badAccess 1 4) := by
    rw [readText, fuel, readTextWithin, readByte_fault fault]
    rfl
  have converted : Routine.convert o.next (Bytes.code 's') 4 = .error (.badAccess 1 4) := read
  rw [pointer, converted] at run
  obtain ⟨i, fetched, call, _, same, opened⟩ := there.called .printf valid (by decide)
  have stopped : o.step = (.error ⟨.badAccess 1 4, some i⟩, o.next) := by
    rw [step_eq there.ready.running fetched, opened, run]
  obtain ⟨back, bad⟩ : ∃ back, o.readAccesses 4 = ⟨4, 1, false⟩ :: back := by
    rw [readAccesses, fuel, textAccesses]
    exact ⟨_, rfl⟩
  rw [if_pos rfl, pointer, bad] at all
  have safe : Safe P.constants blocks o := by
    intro a member
    simp only [accesses, there.ready.running, Bool.false_eq_true, if_false, fetched,
      Option.map_some, Option.getD_some, same, all] at member
    rcases mem_upToFault_of_fault fault member with other | rfl
    · exact inside a other
    · exact .null below i (by rw [stopped])
  have watched := there.watch fetched (by rw [call]; decide) (fun _ => prepared.aligned rfl) safe
  exact there.fails matched.output watched stopped (.null below i)

/-- What can be printed is shown, unless it is null. -/
theorem leads_show {shape : Shape} {v : Value} (valid : P.Valid)
    (matched : Matches P s blocks words m)
    (before : Before P ((Codegen.print? P.platform (.ofShape shape)).getD [] ++ rest) m)
    (printable : shape.IsScalar ∨ shape = .string)
    (held : Represents P s.heap blocks shape v (m.registers.get (resultRegister shape)))
    (null : v = .text none → ∀ n, Fails P s .null blocks n → Leads P.Watch goal blocks n)
    (onward : ∀ text, Interpreter.shown v = pure text → ∀ n,
      Matches P { s with output := s.output ++ text ++ "\n" } blocks words n →
      Before P rest n → Leads P.Watch goal blocks n) : Leads P.Watch goal blocks m := by
  generalize value : m.registers.get (resultRegister shape) = w at held
  cases held with
  | int n =>
    have known : (Codegen.formatInt, formatOf 'd') ∈ formats := by decide
    have eax : m.registers.eax = n.toUInt32 := value
    have plain : Bytes.code 'd' ≠ Bytes.code 's' := by decide
    refine leads_print valid matched before known (by decide)
      (fun o stored => ⟨?_, fun string => absurd string plain⟩)
      (onward (Numeral.decimal n.toInt) rfl)
    rw [eax, ← Word.toInt_toUInt32 n]
    rfl
  | char c =>
    have known : (Codegen.formatChar, formatOf 'c') ∈ formats := by decide
    have eax : m.registers.eax = c.toUInt32 := value
    have plain : Bytes.code 'c' ≠ Bytes.code 's' := by decide
    refine leads_print valid matched before known (by decide)
      (fun o stored => ⟨?_, fun string => absurd string plain⟩)
      (onward [c] rfl)
    have shown : Routine.convert o (Bytes.code 'c') c.toUInt32 = .ok [c.toUInt32.toUInt8] := rfl
    rw [eax, shown, UInt8.toUInt8_toUInt32]
  | noText =>
    have esi : m.registers.get .esi = 0 := value
    refine (At.start matched.ready before).leal rfl rfl fun n there => ?_
    refine leads_printNull valid (there.keeps matched rfl rfl) there.before ?_ (null rfl)
    rw [there.registers, esi]
    rfl
  | text known placed =>
    have esi : m.registers.get .esi = w := value
    refine (At.start matched.ready before).leal rfl rfl fun n there => ?_
    have format : (Codegen.formatString, formatOf 's') ∈ formats := by decide
    have eax : n.registers.eax = w + 4 := by
      rw [there.registers, ← esi]
      rfl
    refine leads_print valid (there.keeps matched rfl rfl) there.before format (by decide)
      (fun o stored => ?_) (onward _ rfl)
    obtain ⟨read, inside⟩ := stored.readString valid known placed
    rw [eax]
    exact ⟨read, fun _ => inside⟩
  | noArray _ => simp [Shape.IsScalar] at printable
  | array _ _ => simp [Shape.IsScalar] at printable

end Printing

end Onepass.Simulation
