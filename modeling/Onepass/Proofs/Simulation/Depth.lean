import Onepass.Proofs.Machine.Pointers
import Onepass.Proofs.Simulation.Program

/-! How deep the stack of a compiled program gets. Every fragment of generated code leaves the stack
pointer where it found it, or takes back the one word that was pushed before it, and uses a number of
bytes below the stack pointer that can be read off the tree. Labels stand only where nothing but the
frame is on the stack. -/
namespace Onepass

namespace Syntax

/-- The bytes that a call with some words of arguments needs on the stack, with those that its
alignment takes. -/
def callNeed (platform : Platform) (words : Nat) : Nat :=
  4 * words + if platform.alignsCalls then 15 + Codegen.argumentPadding words else 0

mutual

/-- The bytes of the stack that the code of an expression needs. -/
def Expr.need (platform : Platform) : Expr → Nat
  | .int _ | .char _ | .string _ | .variable _ => 0
  | .binary _ left right | .index left right =>
    max (left.need platform) (4 + right.need platform)
  | .negate operand => operand.need platform
  | .array first rest =>
    max (callNeed platform 1) (4 + max (first.need platform) (Expr.allNeed platform rest))
  | .emptyArray _ => callNeed platform 1

def Expr.allNeed (platform : Platform) : List Expr → Nat
  | [] => 0
  | first :: rest => max (first.need platform) (Expr.allNeed platform rest)

end

mutual

/-- The bytes of the stack below the frame that the code of a statement needs. -/
def Stmt.need (platform : Platform) : Stmt → Nat
  | .declare _ value | .assign _ value => value.need platform
  | .store container selector value =>
    max (max (container.need platform) (4 + selector.need platform)) (4 + value.need platform)
  | .print value => max (value.need platform) (callNeed platform 2)
  | .ifThen condition body | .loop condition body =>
    max (condition.need platform) (body.need platform)
  | .ifElse condition body other =>
    max (condition.need platform) (max (body.need platform) (other.need platform))
  | .block body => Stmt.allNeed platform body

def Stmt.allNeed (platform : Platform) : List Stmt → Nat
  | [] => 0
  | first :: rest => max (first.need platform) (Stmt.allNeed platform rest)

end

end Syntax

namespace Simulation

open Assembly (Code Instruction Line Placed)
open Codegen (boundsLabel localLabel)
open Machine
open Syntax (callNeed Expr Stmt)

/-- Where an instruction may go: a call goes to a routine, and a jump to the routine for failed bounds
checks or, with nothing but the frame on the stack, to a local label. -/
def Permits (platform : Platform) (ground p : Pointers) (i : Instruction) : Prop :=
  ∀ name, Assembly.Operand.absolute (.symbol name) ∈ i.operands →
    if i.mnemonic = "call" then name = platform.symbol "printf" ∨ name = platform.symbol "malloc"
    else name = boundsLabel ∨ (∃ k, name = localLabel k) ∧ { p with edi := none } = ground

/-- What code makes of the pointers, when all stack pointers on its way are fit for use and labels
stand only where nothing but the frame is on the stack. -/
inductive Flows (platform : Platform) (fits : Word → Prop) (ground : Pointers) :
    Pointers → Code → Pointers → Prop where
  | nil (p : Pointers) : Flows platform fits ground p [] p
  | label {p q : Pointers} {rest : Code} (name : Bytes) (level : { p with edi := none } = ground)
      (later : Flows platform fits ground ground rest q) :
      Flows platform fits ground p (.label name :: rest) q
  | instruction {p r q : Pointers} {mnemonic : Bytes} {operands : List Assembly.Operand}
      {rest : Code} (moves : p.after ⟨mnemonic, operands⟩ = some r) (inside : fits r.esp)
      (permits : Permits platform ground p ⟨mnemonic, operands⟩)
      (later : Flows platform fits ground r rest q) :
      Flows platform fits ground p (.instruction mnemonic operands :: rest) q

section

variable {platform : Platform} {fits : Word → Prop} {ground p q r : Pointers} {code rest : Code}
  {need more : Nat}

theorem Flows.append (first : Flows platform fits ground p code q)
    (second : Flows platform fits ground q rest r) :
    Flows platform fits ground p (code ++ rest) r := by
  induction first with
  | nil _ => exact second
  | label name level _ ih => exact .label name level (ih second)
  | instruction moves inside permits _ ih => exact .instruction moves inside permits (ih second)

/-- Whether an operand is a destination or a place by its name. -/
def isAbsolute : Assembly.Operand → Bool
  | .absolute _ => true
  | _ => false

/-- An instruction without a destination goes on with the next one. -/
theorem permits_plain {i : Instruction} (plain : i.operands.any isAbsolute = false) :
    Permits platform ground p i := by
  intro name member
  rw [List.any_eq_false] at plain
  exact absurd rfl (plain _ member)

/-- Whether some bytes below a stack pointer are fit for use. -/
def Room (fits : Word → Prop) (need : Nat) (p : Pointers) : Prop :=
  ∀ d ≤ need, fits (p.esp - d.toUInt32)

theorem Room.here (room : Room fits need p) : fits p.esp := by
  simpa using room 0 (Nat.zero_le _)

theorem Room.mono (room : Room fits need p) (le : more ≤ need) : Room fits more p :=
  fun d bound => room d (le_trans bound le)

private theorem sub_toUInt32 (w : Word) (d e : Nat) :
    w - d.toUInt32 - e.toUInt32 = w - (d + e).toUInt32 := by
  rw [sub_sub, ← UInt32.ofNat_add]

theorem Room.below {d : Nat} (room : Room fits (d + need) p) :
    Room fits need { p with esp := p.esp - d.toUInt32 } := by
  intro e bound
  rw [sub_toUInt32]
  exact room (d + e) (by omega)

/-- Whether a line holds an instruction that has nothing to do with the pointers and goes on with the
next one. -/
def isQuiet : Line → Bool
  | ⟨[], some (.instruction i)⟩ =>
    (Mnemonic.ofName? i.mnemonic).any Mnemonic.isPlain &&
      (!i.operands.any (·.held?.isSome) && !i.operands.any isAbsolute)
  | _ => false

private theorem after_of_plain {i : Instruction} {k : Mnemonic}
    (known : Mnemonic.ofName? i.mnemonic = some k) (plain : k.isPlain = true)
    (free : i.operands.any (·.held?.isSome) = false) : p.after i = some p := by
  unfold Pointers.after
  rw [known]
  cases k with
  | pushl | popl | leave | ret | call | jmp | jump _ => cases plain
  | _ => simp [free]

theorem Flows.quiet (quiet : code.all isQuiet = true) (inside : fits p.esp) :
    Flows platform fits ground p code p := by
  induction code with
  | nil => exact .nil p
  | cons line rest ih =>
    rw [List.all_cons, Bool.and_eq_true] at quiet
    rcases line with ⟨_ | ⟨name, names⟩, _ | ⟨d | ⟨mnemonic, operands⟩⟩⟩
    · cases quiet.1
    · cases quiet.1
    · obtain ⟨known, free⟩ := (Bool.and_eq_true _ _).mp quiet.1
      obtain ⟨k, known, plain⟩ := (Option.any_eq_true _ _).mp known
      rw [Bool.and_eq_true, Bool.not_eq_true', Bool.not_eq_true'] at free
      exact .instruction (after_of_plain known plain free.1) inside (permits_plain free.2)
        (ih quiet.2)
    · cases quiet.1
    · cases quiet.1
    · cases quiet.1

/-- The code that calls a routine: it pushes the arguments and gives the stack back. -/
inductive CallSequence (platform : Platform) : Code → Prop where
  | malloc (bytes : Int) : CallSequence platform (Codegen.allocate platform bytes)
  | printf (format : Bytes) : CallSequence platform (Codegen.printFormat platform format)

/-- Whether a line is a call. -/
def isCall : Line → Bool
  | ⟨_, some (.instruction i)⟩ => i.mnemonic == "call"
  | _ => false

/-- Whether all calls of some code are made by such sequences. -/
inductive Sequenced (platform : Platform) : Code → Prop where
  | nil : Sequenced platform []
  | line {line : Line} {rest : Code} (other : isCall line = false)
      (later : Sequenced platform rest) : Sequenced platform (line :: rest)
  | sequence {code rest : Code} (known : CallSequence platform code)
      (later : Sequenced platform rest) : Sequenced platform (code ++ rest)

theorem Sequenced.append (first : Sequenced platform code) (second : Sequenced platform rest) :
    Sequenced platform (code ++ rest) := by
  induction first with
  | nil => exact second
  | line other _ ih => exact .line other ih
  | sequence known _ ih =>
    rw [List.append_assoc]
    exact .sequence known ih

theorem Sequenced.lines (others : code.all (!isCall ·) = true) : Sequenced platform code := by
  induction code with
  | nil => exact .nil
  | cons line rest ih =>
    rw [List.all_cons, Bool.and_eq_true, Bool.not_eq_true'] at others
    exact .line others.1 (ih others.2)

/-- Whether code leaves the stack pointer and the base as they were, when there is room for some
bytes on the stack. -/
structure Balanced (platform : Platform) (fits : Word → Prop) (ground : Pointers) (need : Nat)
    (code : Code) : Prop where
  flows : ∀ p : Pointers, Room fits need p →
    ∃ w, Flows platform fits ground p code { p with edi := w }
  sequenced : Sequenced platform code

/-- Whether code takes a word from the stack. -/
structure Drops (platform : Platform) (fits : Word → Prop) (ground : Pointers) (code : Code) :
    Prop where
  flows : ∀ p : Pointers, fits p.esp → fits (p.esp + 4) →
    Flows platform fits ground p code { p with esp := p.esp + 4 }
  sequenced : Sequenced platform code

private theorem sequenced_quiet (quiet : code.all isQuiet = true) : Sequenced platform code := by
  refine .lines (List.all_eq_true.mpr fun line member => ?_)
  have silent := List.all_eq_true.mp quiet line member
  rcases line with ⟨_ | ⟨name, names⟩, _ | ⟨d | ⟨mnemonic, operands⟩⟩⟩
  · rfl
  · rfl
  · by_cases calls : mnemonic = "call"
    · subst calls
      cases silent
    · simp [isCall, calls]
  · rfl
  · rfl
  · cases silent

theorem Balanced.quiet (quiet : code.all isQuiet = true) : Balanced platform fits ground 0 code where
  flows p room := ⟨p.edi, .quiet quiet room.here⟩
  sequenced := sequenced_quiet quiet

theorem Balanced.mono (balanced : Balanced platform fits ground need code) (le : need ≤ more) :
    Balanced platform fits ground more code where
  flows p room := balanced.flows p (room.mono le)
  sequenced := balanced.sequenced

theorem Balanced.append (first : Balanced platform fits ground need code)
    (second : Balanced platform fits ground more rest) :
    Balanced platform fits ground (max need more) (code ++ rest) where
  flows p room := by
    obtain ⟨w, flows⟩ := first.flows p (room.mono (le_max_left ..))
    have later : Room fits more { p with edi := w } := room.mono (le_max_right ..)
    obtain ⟨v, onward⟩ := second.flows _ later
    exact ⟨v, flows.append onward⟩
  sequenced := first.sequenced.append second.sequenced

/-- Code that is followed by quiet code. -/
theorem Balanced.then_quiet (first : Balanced platform fits ground need code)
    (quiet : rest.all isQuiet = true) : Balanced platform fits ground need (code ++ rest) := by
  simpa using first.append (Balanced.quiet quiet)

/-- Code between a push and the code that takes the word back. -/
theorem Balanced.under {a : Assembly.Operand} (inner : Balanced platform fits ground need code)
    (drops : Drops platform fits ground rest) (plain : isAbsolute a = false) :
    Balanced platform fits ground (4 + need) ([.instruction "pushl" [a]] ++ code ++ rest) where
  flows p room := by
    obtain ⟨w, flows⟩ := inner.flows _ room.below
    have back : p.esp - Nat.toUInt32 4 + 4 = p.esp := sub_add_cancel p.esp 4
    have dropped := drops.flows { p with esp := p.esp - Nat.toUInt32 4, edi := w }
      (room 4 (by omega)) (by rw [back]; exact room.here)
    rw [back] at dropped
    exact ⟨w, Flows.append (.instruction rfl (room 4 (by omega)) (permits_plain (by simp [plain]))
      flows) dropped⟩
  sequenced := .append (.line rfl inner.sequenced) drops.sequenced

/-- A word is taken by a pop into a register that holds no pointer. -/
theorem Drops.pop {a : Assembly.Operand} (free : a.held? = none) (plain : isAbsolute a = false) :
    Drops platform fits ground [.instruction "popl" [a]] where
  flows p _ inside := by
    refine .instruction ?_ inside (permits_plain (by simp [plain])) (.nil _)
    have known : Mnemonic.ofName? "popl" = some .popl := rfl
    simp [Pointers.after, known, free]
  sequenced := .line rfl .nil

theorem Drops.words : Drops platform fits ground [Codegen.dropWords 1] where
  flows _ _ inside := .instruction rfl inside (permits_plain rfl) (.nil _)
  sequenced := .line rfl .nil

theorem Drops.after_quiet (code : Code) (quiet : code.all isQuiet = true)
    (drops : Drops platform fits ground rest) : Drops platform fits ground (code ++ rest) where
  flows p inside above := (Flows.quiet quiet inside).append (drops.flows p inside above)
  sequenced := (sequenced_quiet quiet).append drops.sequenced

theorem Drops.then_quiet (drops : Drops platform fits ground code)
    (quiet : rest.all isQuiet = true) : Drops platform fits ground (code ++ rest) where
  flows p inside above := (drops.flows p inside above).append (.quiet quiet above)
  sequenced := drops.sequenced.append (sequenced_quiet quiet)

/-! Calls. -/

/-- Rounding down to a multiple of 16 takes at most 15 bytes. -/
theorem align_eq (w : Word) :
    ∃ d ≤ 15, w &&& Word.ofInt (Codegen.wrap (-16)) = w - Nat.toUInt32 d := by
  have mask : Word.ofInt (Codegen.wrap (-16)) = ~~~15 := by decide
  refine ⟨(w &&& 15).toNat, ?_, ?_⟩
  · rw [UInt32.toNat_and]
    exact Nat.and_le_right
  · have whole : Nat.toUInt32 (w &&& 15).toNat = w &&& 15 := UInt32.ofNat_toNat
    rw [mask, whole]
    exact eq_sub_of_add_eq (Word.and_not_add_and w 15)

/-- The code that pushes arguments. -/
def pushes (arguments : List Assembly.Operand) : Code :=
  arguments.map fun a => .instruction "pushl" [a]

theorem Flows.pushes {arguments : List Assembly.Operand}
    (plain : arguments.any isAbsolute = false) (room : Room fits (4 * arguments.length) p) :
    Flows platform fits ground p (pushes arguments)
      { p with esp := p.esp - (4 * arguments.length).toUInt32 } := by
  induction arguments generalizing p with
  | nil =>
    have same : p.esp - Nat.toUInt32 (4 * 0) = p.esp := sub_zero _
    rw [List.length_nil, same]
    exact .nil p
  | cons a rest ih =>
    rw [List.any_cons, Bool.or_eq_false_iff] at plain
    rw [List.length_cons, Nat.mul_succ, Nat.add_comm] at room
    have later := ih plain.2 room.below
    rw [sub_toUInt32, Nat.add_comm 4] at later
    exact .instruction rfl (room 4 (by omega)) (permits_plain (by simp [plain.1])) later

private theorem ofInt_constant (n : Nat) : Word.ofInt (Codegen.wrap n) = n.toUInt32 :=
  (ofInt_wrap n).trans (Word.ofInt_natCast n)

theorem after_sub (p : Pointers) (n : Nat) :
    p.after ⟨"subl", [Codegen.constant n, Codegen.esp]⟩ =
      some { p with esp := p.esp - n.toUInt32 } := by
  rw [← ofInt_constant n]
  rfl

theorem after_add (p : Pointers) (n : Nat) :
    p.after ⟨"addl", [Codegen.constant n, Codegen.esp]⟩ =
      some { p with esp := p.esp + n.toUInt32 } := by
  rw [← ofInt_constant n]
  rfl

theorem Flows.alignCall {words : Nat} (aligns : platform.alignsCalls = true)
    (room : Room fits (15 + Codegen.argumentPadding words) p) :
    ∃ d ≤ 15 + Codegen.argumentPadding words,
      Flows platform fits ground p (Codegen.alignCall platform words)
        { p with esp := p.esp - Nat.toUInt32 d, edi := some p.esp } := by
  obtain ⟨d, bound, rounded⟩ := align_eq p.esp
  have saved : Flows platform fits ground p [.instruction "movl" [Codegen.esp, Codegen.edi],
      .instruction "andl" [Codegen.constant (-16), Codegen.esp]]
      { p with esp := p.esp - Nat.toUInt32 d, edi := some p.esp } := by
    refine .instruction rfl room.here (permits_plain rfl) (.instruction ?_ (room d (by omega))
      (permits_plain rfl) (.nil _))
    rw [← rounded]
    rfl
  unfold Codegen.alignCall
  rw [if_pos aligns]
  split
  · exact ⟨d, by omega, by simpa using saved⟩
  · refine ⟨d + Codegen.argumentPadding words, by omega, saved.append ?_⟩
    rw [← sub_toUInt32]
    refine .instruction (after_sub _ _) ?_ (permits_plain rfl) (.nil _)
    rw [sub_toUInt32]
    exact room _ (by omega)

/-- A call with its arguments gives the stack back. -/
theorem Flows.call (arguments : List Assembly.Operand) {name : Bytes}
    (plain : arguments.any isAbsolute = false) (known : name = "printf" ∨ name = "malloc")
    (room : Room fits (callNeed platform arguments.length) p) :
    ∃ w, Flows platform fits ground p
      (Codegen.alignCall platform arguments.length ++ Simulation.pushes arguments ++
        Codegen.callRoutine platform name arguments.length) { p with edi := w } := by
  have permits {q : Pointers} : Permits platform ground q
      ⟨"call", [Codegen.destination (platform.symbol name)]⟩ := by
    intro other member
    obtain rfl : other = platform.symbol name := by simpa [Codegen.destination] using member
    exact known.imp (congrArg _) (congrArg _)
  unfold callNeed at room
  unfold Codegen.callRoutine
  by_cases aligns : platform.alignsCalls = true
  · rw [if_pos aligns] at room ⊢
    have padded : Room fits (15 + Codegen.argumentPadding arguments.length) p :=
      room.mono (Nat.le_add_left ..)
    obtain ⟨d, bound, aligned⟩ : ∃ d ≤ 15 + Codegen.argumentPadding arguments.length,
        Flows platform fits ground p (Codegen.alignCall platform arguments.length)
          { p with esp := p.esp - Nat.toUInt32 d, edi := some p.esp } :=
      Flows.alignCall aligns padded
    have rest : Room fits (4 * arguments.length)
        { p with esp := p.esp - Nat.toUInt32 d, edi := some p.esp } :=
      Room.below (p := { p with edi := some p.esp }) (room.mono (by omega))
    refine ⟨some p.esp, (aligned.append (.pushes plain rest)).append ?_⟩
    exact .instruction rfl (rest _ (le_refl _)) permits
      (.instruction rfl room.here (permits_plain rfl) (.nil _))
  · rw [if_neg aligns] at room ⊢
    rw [Codegen.alignCall, if_neg aligns]
    have back : p.esp - (4 * arguments.length).toUInt32 + (arguments.length * wordSize).toUInt32 =
        p.esp := by
      rw [wordSize, Nat.mul_comm 4]
      exact sub_add_cancel ..
    have dropped := after_add { p with esp := p.esp - (4 * arguments.length).toUInt32 }
      (arguments.length * wordSize)
    rw [back] at dropped
    exact ⟨p.edi, (Flows.pushes plain room).append (.instruction rfl (room _ (le_refl _)) permits
      (.instruction dropped room.here (permits_plain rfl) (.nil _)))⟩

theorem balanced_allocate (bytes : Int) :
    Balanced platform fits ground (callNeed platform 1) (Codegen.allocate platform bytes) where
  flows p room := by
    obtain ⟨w, flows⟩ := Flows.call [Codegen.constant bytes] rfl (.inr rfl) room
    exact ⟨w, flows.append (.quiet rfl room.here)⟩
  sequenced := by simpa using Sequenced.sequence (.malloc bytes) .nil

theorem balanced_printFormat (format : Bytes) :
    Balanced platform fits ground (callNeed platform 2) (Codegen.printFormat platform format) where
  flows p room := Flows.call [Codegen.eax, Codegen.address format] rfl (.inl rfl) room
  sequenced := by simpa using Sequenced.sequence (.printf format) .nil

/-! Expressions and statements. -/

theorem drops_operator (o : Operator) : Drops platform fits ground (Codegen.operator o) := by
  cases o with
  | add | sub => exact .after_quiet [_] rfl (.pop rfl rfl)
  | mul => exact .after_quiet [_] rfl .words
  | div => exact .after_quiet [_] rfl (.then_quiet (.pop rfl rfl) rfl)
  | compare comparison =>
    exact .after_quiet [_, _, _] (by cases comparison <;> rfl) .words

theorem quiet_load (t : Ty) (slot : Int) : (Codegen.load t slot).all isQuiet = true := by
  unfold Codegen.load
  split <;> rfl

theorem quiet_store (t : Ty) (slot : Int) : (Codegen.store t slot).all isQuiet = true := by
  unfold Codegen.store
  split <;> rfl

theorem quiet_loadAt (t : Ty) (offset : Int) : (Codegen.loadAt t offset).all isQuiet = true := by
  unfold Codegen.loadAt
  split <;> rfl

theorem quiet_storeAt (t : Ty) (offset : Int) :
    (Codegen.storeAt t "edx" offset).all isQuiet = true := by
  unfold Codegen.storeAt
  split <;> rfl

theorem quiet_storeElement (element : Shape) (position : Nat) :
    (Generator.storeElement element position).all isQuiet = true := by
  rw [Generator.storeElement, List.all_append, quiet_storeAt]
  rfl

theorem quiet_scaleIndex (size : Int) : (Codegen.scaleIndex size).all isQuiet = true := by
  unfold Codegen.scaleIndex
  split
  · rfl
  · split <;> rfl

theorem balanced_boundsCheck : Balanced platform fits ground 0 Codegen.boundsCheck where
  flows p room := by
    refine ⟨p.edi, .instruction rfl room.here (permits_plain rfl)
      (.instruction rfl room.here (fun name member => ?_) (.nil p))⟩
    obtain rfl : name = boundsLabel := by simpa [Codegen.destination] using member
    exact .inl rfl
  sequenced := .lines rfl

theorem balanced_selection {container selector : Code} (element : Shape)
    (first : Balanced platform fits ground need container)
    (second : Balanced platform fits ground more selector) :
    Balanced platform fits ground (max need (4 + more))
      (Generator.selection container selector element) := by
  have popped : Drops platform fits ground Codegen.popPointer := .pop rfl rfl
  have checked := (first.append (second.under (a := Codegen.esi) popped rfl)).append
    balanced_boundsCheck
  have added : Codegen.addIndex.all isQuiet = true := rfl
  have selected := (checked.then_quiet (quiet_scaleIndex element.size)).then_quiet added
  simpa [Generator.selection, Codegen.pushPointer] using selected

theorem balanced_allocation (element : Shape) (count : Nat) :
    Balanced platform fits ground (callNeed platform 1)
      (Generator.allocation platform element count) :=
  (balanced_allocate _).then_quiet rfl

mutual

/-- The code of an expression leaves the stack as it was. -/
theorem balanced_expression (e : Expr) (g : Generator) :
    Balanced platform fits ground (e.need platform) (g.expression platform e).1 := by
  match e with
  | .int _ | .char _ => exact .quiet rfl
  | .string _ => exact .quiet rfl
  | .variable name =>
    refine .quiet ?_
    rw [Generator.expression]
    cases g.scope.find? name with
    | none => rfl
    | some v => exact quiet_load _ _
  | .binary operator left right =>
    have first := balanced_expression left g
    have second := balanced_expression right (g.expression platform left).2
    have whole := first.append (second.under (a := Codegen.eax) (drops_operator operator) rfl)
    simpa [Generator.expression, Codegen.pushScalar, Expr.need] using whole
  | .negate operand => exact (balanced_expression operand g).then_quiet rfl
  | .index left selector =>
    have first := balanced_expression left g
    have second := balanced_expression selector (g.expression platform left).2
    exact (balanced_selection (g.elementOf left) first second).then_quiet (quiet_loadAt _ _)
  | .array first rest =>
    have popped : Drops platform fits ground Codegen.popPointer := .pop rfl rfl
    have stored := ((balanced_expression first g).then_quiet
      (quiet_storeElement (g.shapeOf first) 0)).append
        (balanced_elements (g.shapeOf first) 1 rest (g.expression platform first).2)
    have whole := (balanced_allocation (g.shapeOf first) (rest.length + 1)).append
      (stored.under (a := Codegen.esi) popped rfl)
    simpa [Generator.expression, Codegen.pushPointer, Expr.need] using whole
  | .emptyArray element => exact balanced_allocation element 0

/-- The elements of an array literal are stored while the array waits on the stack. -/
theorem balanced_elements (element : Shape) (position : Nat) (rest : List Expr) (g : Generator) :
    Balanced platform fits ground (Expr.allNeed platform rest)
      (g.elements platform element position rest).1 := by
  match rest with
  | [] => exact .quiet rfl
  | first :: rest =>
    have head := (balanced_expression first g).then_quiet (quiet_storeElement element position)
    exact head.append (balanced_elements element (position + 1) rest _)

end

theorem balanced_print (shape : Shape) :
    Balanced platform fits ground (callNeed platform 2)
      ((Codegen.print? platform (.ofShape shape)).getD []) := by
  have shown : Balanced platform fits ground (callNeed platform 2) (Codegen.printString platform) := by
    have moved : Balanced platform fits ground 0
        [.instruction "leal" [Codegen.based wordSize "esi", Codegen.eax]] := .quiet rfl
    have whole := moved.append (balanced_printFormat Codegen.formatString)
    rwa [Nat.zero_max] at whole
  unfold Codegen.print?
  split
  · exact balanced_printFormat _
  · exact balanced_printFormat _
  · exact shown
  · exact (Balanced.quiet rfl).mono (Nat.zero_le _)

/-- Whether code that starts and ends with nothing but the frame on the stack leaves the pointers as
they were, when there is room for some bytes below the frame. -/
structure Grounded (platform : Platform) (fits : Word → Prop) (ground : Pointers) (need : Nat)
    (code : Code) : Prop where
  flows : Room fits need ground → ∀ w, ∃ v,
    Flows platform fits ground { ground with edi := w } code { ground with edi := v }
  sequenced : Sequenced platform code

theorem Balanced.grounded (balanced : Balanced platform fits ground need code) :
    Grounded platform fits ground need code where
  flows room w := balanced.flows { ground with edi := w } room
  sequenced := balanced.sequenced

theorem Grounded.append (first : Grounded platform fits ground need code)
    (second : Grounded platform fits ground more rest) :
    Grounded platform fits ground (max need more) (code ++ rest) where
  flows room w := by
    obtain ⟨v, flows⟩ := first.flows (room.mono (le_max_left ..)) w
    obtain ⟨u, later⟩ := second.flows (room.mono (le_max_right ..)) v
    exact ⟨u, flows.append later⟩
  sequenced := first.sequenced.append second.sequenced

section

variable (flat : ground.edi = none)

include flat

private theorem leveled : { ground with edi := none } = ground := by
  rcases ground with ⟨esp, ebp, edi⟩
  cases flat
  rfl

theorem grounded_label (name : Bytes) : Grounded platform fits ground 0 (Codegen.label name) where
  flows _ _ := ⟨ground.edi, .label name (leveled flat) (.nil ground)⟩
  sequenced := .lines rfl

theorem grounded_branch {mnemonic : Bytes} (other : mnemonic ≠ "call")
    (stays : ∀ p : Pointers, ∀ name, p.after ⟨mnemonic, [Codegen.destination name]⟩ = some p)
    (k : Nat) : Grounded platform fits ground 0
      [.instruction mnemonic [Codegen.destination (localLabel k)]] where
  flows room w := by
    refine ⟨w, .instruction (stays _ _) room.here (fun name member => ?_) (.nil _)⟩
    obtain rfl : name = localLabel k := by simpa [Codegen.destination] using member
    rw [if_neg other]
    exact .inr ⟨⟨k, rfl⟩, leveled flat⟩
  sequenced := .line (by simp [isCall, Line.instruction, other]) .nil

theorem grounded_jump (k : Nat) :
    Grounded platform fits ground 0 (Codegen.jump (localLabel k)) :=
  grounded_branch flat (by decide) (fun _ _ => rfl) k

theorem grounded_jumpIfFalse (k : Nat) :
    Grounded platform fits ground 0 (Codegen.jumpIfFalse (localLabel k)) := by
  have tested : Balanced platform fits ground 0 [.instruction "orl" [Codegen.eax, Codegen.eax]] :=
    .quiet rfl
  exact tested.grounded.append (grounded_branch flat (by decide) (fun _ _ => rfl) k)

end

mutual

/-- The code of a statement starts and ends with nothing but the frame on the stack. -/
theorem grounded_statement (flat : ground.edi = none) (s : Stmt) (g : Generator) :
    Grounded platform fits ground (s.need platform) (g.statement platform s).1 := by
  have computed (e : Expr) (g : Generator) :
      Balanced platform fits ground (e.need platform) (g.expression platform e).1 :=
    balanced_expression e g
  have jumps (g : Generator) :
      Grounded platform fits ground 0 (Codegen.jumpIfFalse g.newLabel.1) :=
    grounded_jumpIfFalse flat g.nextLabel
  have goes (g : Generator) : Grounded platform fits ground 0 (Codegen.jump g.newLabel.1) :=
    grounded_jump flat g.nextLabel
  have placed (name : Bytes) : Grounded platform fits ground 0 (Codegen.label name) :=
    grounded_label flat name
  match s with
  | .declare name value | .assign name value =>
    exact ((computed value g).then_quiet (quiet_store _ _)).grounded
  | .store container selector value =>
    have popped : Drops platform fits ground (Codegen.popBase "edx") := .pop rfl rfl
    have selected := balanced_selection (g.elementOf container) (computed container g)
      (computed selector (g.expression platform container).2)
    have item := computed value ((g.expression platform container).2.expression platform selector).2
    have stored := (selected.append (item.under (a := Codegen.esi) popped rfl)).then_quiet
      (quiet_storeAt (.ofShape (g.elementOf container)) wordSize)
    have whole := stored.grounded
    simpa [Generator.statement, Codegen.pushPointer, Stmt.need] using whole
  | .print value =>
    exact ((computed value g).append (balanced_print (g.shapeOf value))).grounded
  | .ifThen condition body =>
    have whole : Grounded platform fits ground _ (g.statement platform (.ifThen condition body)).1 :=
      (((computed condition g).grounded.append (jumps _)).append (grounded_statement flat body _)).append
        (placed _)
    simpa [Stmt.need] using whole
  | .ifElse condition body other =>
    have whole : Grounded platform fits ground _
        (g.statement platform (.ifElse condition body other)).1 :=
      ((((((computed condition g).grounded.append (jumps _)).append
        (grounded_statement flat body _)).append (goes _)).append (placed _)).append
        (grounded_statement flat other _)).append (placed _)
    simpa [Stmt.need, max_assoc] using whole
  | .loop condition body =>
    have whole : Grounded platform fits ground _ (g.statement platform (.loop condition body)).1 :=
      (((((placed _).append (computed condition _).grounded).append (jumps _)).append
        (grounded_statement flat body _)).append (goes g)).append (placed _)
    simpa [Stmt.need] using whole
  | .block body => exact grounded_statements flat body g

theorem grounded_statements (flat : ground.edi = none) (body : List Stmt) (g : Generator) :
    Grounded platform fits ground (Stmt.allNeed platform body) (g.statements platform body).1 := by
  match body with
  | [] => exact (Balanced.quiet rfl).grounded
  | first :: rest =>
    exact (grounded_statement flat first g).append
      (grounded_statements flat rest (g.statement platform first).2)

end

end

end Simulation

end Onepass
