import Onepass.Proofs.Simulation.Statements

/-! Whole programs. Loading an assembled program puts its constants and its code where the proofs
about its parts expect them. From the entry of `main` the machine does what the interpreter does,
and then returns to its caller; until then everything that is watched holds in every state. -/
namespace Onepass

open Assembly (Code Image Layout Placed)
open Codegen (localLabel boundsLabel)
open Machine
open Syntax (Context Stmt Typed WellTyped parse)

/-- The labels of an assembled program are those that its text places. -/
theorem Generator.labels_program {platform : Platform} {tree : List Stmt} {image : Image}
    (assembled : Assembly.assemble (Codegen.Builder.text ((program platform tree).2.builder platform
      (program platform tree).1)) = .ok image) :
    image.labels = (((program platform tree).2.main platform (program platform tree).1).places
      0).reverse := by
  have placed : (program platform tree).1.labels.Perm
      (localLabels 0 (program platform tree).2.nextLabel) := labels_statements tree {}
  obtain ⟨l, laid, labels, _⟩ := layout_program placed (isText_program platform tree)
  rw [Assembly.assemble, read_text] at assembled
  obtain ⟨other, first, second⟩ := bind_eq_ok.mp assembled
  obtain rfl : l = other := Except.ok.inj (laid.symm.trans first)
  rw [(Image.added_lines second).1]
  exact labels

/-- Variables have types that programs can write. -/
theorem Syntax.Typed.writable {before after : Context} {s : Stmt} (typed : Typed before s after)
    (all : ∀ entry ∈ before, entry.2.isWritable = true) :
    ∀ entry ∈ after, entry.2.isWritable = true := by
  induction typed with
  | declare _ typed =>
    intro entry member
    rcases List.mem_append.mp member with old | new
    · exact all entry old
    · obtain rfl := List.mem_singleton.mp new
      exact typed.writable all
  | assign | store | print | done => exact all
  | ifThen _ _ _ inner | loop _ _ _ inner => exact inner all
  | ifElse _ _ _ _ first second | next _ _ first second => exact second (first all)

namespace Simulation

open Assembly (dataBase)

/-- A program that was compiled from a source of limited length, assembled and loaded on a new
machine. -/
structure Loaded (source : Source) (platform : Platform) (tree : List Stmt) (image : Image)
    (sink : Sink) (maxSteps : Int) (first : Machine) : Prop where
  limit : source.text.length ≤ Source.wordLimit
  parsed : parse source = .ok tree
  typed : WellTyped tree (Generator.program platform tree).2.context
  assembled : Assembly.assemble (Codegen.Builder.text ((Generator.program platform tree).2.builder
    platform (Generator.program platform tree).1)) = .ok image
  loads : Machine.load { sink, maxSteps } image = .ok first

/-- What is fixed while a loaded program runs. -/
def settingOf (platform : Platform) (tree : List Stmt) (l : Layout) (image : Image)
    (first : Machine) : Setting where
  platform := platform
  layout := l
  text := image.text
  data := first.memory
  dataEnd := dataBase.toNat + image.data.size
  strings := (Generator.program platform tree).2.strings
  locals := (Generator.program platform tree).2.context
  written := first.sink.written

/-- The code that sets up the frame of `main`. -/
def entering (locals : Nat) : Code :=
  [.instruction "pushl" [Codegen.ebp], .instruction "movl" [Codegen.esp, Codegen.ebp],
    .instruction "subl" [Codegen.constant (wordSize * locals : Nat), Codegen.esp]]

/-- The code that returns from `main`. -/
def leaving : Code :=
  [.instruction "movl" [Codegen.constant 0, Codegen.eax], .instruction "leave" [],
    .instruction "ret" []]

/-- The code that follows the label of `main`. -/
def mainCode (platform : Platform) (tree : List Stmt) : Code :=
  entering (Generator.program platform tree).2.context.length ++
    ((Generator.program platform tree).1 ++
      (leaving ++ Codegen.Builder.boundsRoutine platform))

theorem main_eq (platform : Platform) (tree : List Stmt) :
    (Generator.program platform tree).2.main platform (Generator.program platform tree).1 =
      .label (platform.symbol "main") :: mainCode platform tree := by
  have size : (Generator.program platform tree).2.scope.size =
      (Generator.program platform tree).2.context.length := by
    simp [Generator.context, Scope.size, slotSize]
  simp only [Generator.main, Generator.entry, mainCode, List.append_assoc, size]
  cases platform <;> rfl

/-- Local labels have other names than the entry and the failed bounds check. -/
theorem localLabel_ne (platform : Platform) (k : Nat) :
    localLabel k ≠ platform.symbol "main" ∧ localLabel k ≠ boundsLabel := by
  have distinct := Generator.nodup_textNames platform (k + 1)
  have member : localLabel k ∈ (List.range (k + 1)).map localLabel :=
    List.mem_map_of_mem (List.mem_range.mpr (Nat.lt_succ_self k))
  have apart := (List.nodup_append.mp distinct).2.2
  exact ⟨(apart _ (by simp) _ member).symm, (apart _ (by simp) _ member).symm⟩

section Loading

variable {source : Source} {platform : Platform} {tree : List Stmt} {image : Image} {sink : Sink}
  {maxSteps : Int} {first : Machine} {l : Layout}

theorem Loaded.fits (loaded : Loaded source platform tree image sink maxSteps first) :
    image.Fits :=
  Machine.fits_of_load loaded.parsed loaded.assembled loaded.limit loaded.loads

/-- What loading leaves. -/
theorem Loaded.first_eq (loaded : Loaded source platform tree image sink maxSteps first) :
    first =
      { sink, maxSteps, memory := Memory.writeBytes {} dataBase image.data.toList,
        text := image.text, labels := image.labels,
        heap := (dataBase + image.data.size.toUInt32 + 15) &&& ~~~15 } := by
  have loads := loaded.loads
  unfold Machine.load at loads
  dsimp only at loads
  split at loads
  · cases loads
  · exact (Except.ok.inj loads).symm

/-- A piece of the data stands where its label says. -/
theorem Loaded.holds (loaded : Loaded source platform tree image sink maxSteps first)
    {bytes : Bytes} {start : Nat} (stands : bytes <+: image.data.toList.drop start)
    (nonempty : 0 < bytes.length) :
    (settingOf platform tree l image first).Holds (dataBase + start.toUInt32) bytes := by
  obtain ⟨place, bound⟩ := toNat_start loaded.fits stands nonempty
  refine ⟨by omega, ?_, fun found => ?_⟩
  · change _ ≤ dataBase.toNat + image.data.size
    omega
  · have memory : first.memory =
        Memory.writeBytes (m := ({ sink, maxSteps } : Machine).memory) dataBase
          image.data.toList := by
      rw [loaded.first_eq]
    exact (readByte_loaded loaded.fits memory stands found).1

section Places

variable (labels : l.labels = (((Generator.program platform tree).2.main platform
    (Generator.program platform tree).1).places 0).reverse)

include labels

/-- A local label stands in the code of the program. -/
theorem mem_places {k index : Nat} (known : l.label? (localLabel k) = some index) :
    (localLabel k, index) ∈ (entering (Generator.program platform tree).2.context.length ++
      (Generator.program platform tree).1).places 0 := by
  obtain ⟨main, bounds⟩ := localLabel_ne platform k
  have last (place : Nat) : (localLabel k, index) ∉
      (leaving ++ Codegen.Builder.boundsRoutine platform).places place := by
    intro found
    have name := List.mem_map_of_mem (f := Prod.fst) found
    have only : Code.labels (leaving ++ Codegen.Builder.boundsRoutine platform) =
        [boundsLabel] := by cases platform <;> rfl
    rw [Assembly.map_fst_places, only, List.mem_singleton] at name
    exact bounds name
  have member := Assembly.mem_of_lookup known
  rw [labels, List.mem_reverse, main_eq, mainCode, ← List.append_assoc] at member
  rcases List.mem_append.mp member with entry | inner
  · simp only [List.map_cons, List.map_nil, List.mem_singleton, Prod.mk.injEq] at entry
    exact absurd entry.1 main
  · rw [Assembly.places_append] at inner
    exact (List.mem_append.mp inner).resolve_right (last _)

/-- Loading a program guarantees that its code can be executed from the start. -/
theorem before_main (placed : Placed l image.text 0 ((Generator.program platform tree).2.main
    platform (Generator.program platform tree).1)) {m : Machine} (start : m.pc = 0) :
    Before (settingOf platform tree l image first) (mainCode platform tree) m := by
  have shown {k index : Nat} (known : l.label? (localLabel k) = some index) :
      (localLabel k, index) ∈ (mainCode platform tree).places 0 := by
    rw [mainCode, ← List.append_assoc, Assembly.places_append]
    exact List.mem_append_left _ (mem_places labels known)
  rw [main_eq] at placed
  exact ⟨0, start, (Assembly.placed_label.mp placed).2, fun known _ => shown known,
    fun known => .inl (shown known)⟩

end Places

/-- Loading a program guarantees what the proofs about its parts expect. -/
theorem Loaded.valid (loaded : Loaded source platform tree image sink maxSteps first)
    (laid : Assembly.Area.Laid l image.data.toList 0
      (Generator.areas (Generator.program platform tree).2.strings))
    (placed : Placed l image.text 0 ((Generator.program platform tree).2.main platform
      (Generator.program platform tree).1))
    (labels : l.labels = (((Generator.program platform tree).2.main platform
      (Generator.program platform tree).1).places 0).reverse) :
    (settingOf platform tree l image first).Valid where
  routine name member := by
    have names : l.labels.map Prod.fst = ((Generator.program platform tree).2.main platform
        (Generator.program platform tree).1).labels.reverse := by
      rw [labels, List.map_reverse, Assembly.map_fst_places]
    have local_ : (Generator.program platform tree).1.labels.Perm
        (Generator.localLabels 0 (Generator.program platform tree).2.nextLabel) :=
      Generator.labels_statements tree {}
    have perm := Generator.labels_main_perm local_ platform
    refine List.lookup_eq_none_iff.mpr fun entry known => ?_
    have label : entry.1 ∈ Generator.textNames platform
        (Generator.program platform tree).2.nextLabel := by
      refine perm.mem_iff.mp (List.mem_reverse.mp ?_)
      rw [← names]
      exact List.mem_map_of_mem known
    have routine : platform.symbol name ∈ Generator.routines platform := by
      simp only [List.mem_cons, List.not_mem_nil, or_false] at member
      rcases member with rfl | rfl | rfl <;> exact List.mem_map_of_mem (by decide)
    have differ : platform.symbol name ≠ entry.1 := fun same =>
      Generator.disjoint_routines platform _ routine (same ▸ label)
    simpa [settingOf] using differ
  bounds := by
    have before : Before (settingOf platform tree l image first) (mainCode platform tree) {} :=
      before_main labels placed rfl
    rw [mainCode, ← List.append_assoc, ← List.append_assoc] at before
    have split : Codegen.Builder.boundsRoutine platform = .label boundsLabel ::
        (Codegen.Builder.boundsRoutine platform).drop 1 := rfl
    rw [split] at before
    exact before.labelled
  apart {k index} bounds same := by
    have front := Assembly.index_of_places (mem_places labels same)
    rw [main_eq, mainCode, ← List.append_assoc, ← List.append_assoc] at placed
    have behind := (Assembly.placed_append.mp (Assembly.placed_label.mp placed).2).2
    have there : l.label? boundsLabel = some _ := (Assembly.placed_label.mp behind).1
    have index := Option.some.inj (there.symm.trans bounds)
    have three : Code.instructions leaving = 3 := rfl
    rw [Assembly.instructions_append, three] at index
    omega
  format {name contents} member := by
    have area : (⟨name, contents ++ [0], false⟩ : Assembly.Area) ∈
        Generator.areas (Generator.program platform tree).2.strings := by
      refine List.mem_append_left _ ?_
      simp only [formats, List.mem_cons, List.not_mem_nil, or_false, Prod.mk.injEq] at member
      rcases member with ⟨rfl, rfl⟩ | ⟨rfl, rfl⟩ | ⟨rfl, rfl⟩ <;> simp
    obtain ⟨start, _, _, known, stands⟩ := laid.place area
    exact ⟨_, known, loaded.holds stands (Generator.length_areas_pos area)⟩
  string {index value} found := by
    have area := Generator.stringArea_mem found
    obtain ⟨start, _, _, known, stands⟩ := laid.place area
    refine ⟨_, known, ?_⟩
    rw [List.append_assoc]
    exact loaded.holds stands (Generator.length_areas_pos area)
  low := Nat.le_add_right _ _
  high := loaded.fits
  names := by
    have names := loaded.typed.names
    simp only [List.map_nil, List.nil_append] at names
    change ((Generator.program platform tree).2.context.map Prod.fst).Nodup
    rw [names]
    exact nodup_eraseDups _
  writable := loaded.typed.writable nofun

/-- The machine at the entry of `main`. -/
def entered (first : Machine) : Machine :=
  { first with
    registers := first.registers.set .esp (memorySize - 4).toUInt32
    memory := first.memory.writeWord (memorySize - 4).toUInt32 returnSentinel
    pc := 0 }

/-- A program starts at the label of `main`, with the sentinel as its return address. -/
theorem Loaded.start_eq (loaded : Loaded source platform tree image sink maxSteps first)
    (same : image.labels = l.labels)
    (placed : Placed l image.text 0 ((Generator.program platform tree).2.main platform
      (Generator.program platform tree).1)) :
    first.start (platform.symbol "main") = (.ok (), entered first) := by
  rw [main_eq] at placed
  have known : l.labels.lookup (platform.symbol "main") = some 0 :=
    (Assembly.placed_label.mp placed).1
  have entry : first.label? (platform.symbol "main") = some 0 := by
    have labels : first.labels = l.labels := by rw [loaded.first_eq, same]
    simp [Machine.label?, labels, known]
  have top : first.registers.esp - 4 = (memorySize - 4).toUInt32 := by
    have full : first.registers.esp = memorySize.toUInt32 := by rw [loaded.first_eq]
    rw [full]
    decide
  have pushed : (Exec.push returnSentinel).run first =
      (.ok (), { entered first with pc := first.pc }) := by
    have fine : accessible (first.registers.esp - 4) 4 = true := by
      rw [top]
      decide
    refine (push_eq fine).trans ?_
    rw [top]
    rfl
  simp only [Machine.start, entry, pushed]
  rfl

end Loading

section Frame

variable {P : Setting} {blocks : Ledger} {goal : Ledger → Machine → Prop} {m n origin : Machine}
  {rest : Code} {r : Registers} {memory : Memory} {flags : Flags}

theorem At.leave (here : At P blocks origin (.instruction "leave" [] :: rest) r memory flags m)
    (low : r.esp.toNat ≤ r.ebp.toNat) (high : r.ebp.toNat + 4 ≤ memorySize)
    (onward : ∀ n, At P blocks origin rest
      ((r.set .esp (r.ebp + 4)).set .ebp (memory.readWord r.ebp)) memory flags n →
        Leads P.Watch goal blocks n) : Leads P.Watch goal blocks m := by
  have decodes (number : Nat) :
      P.layout.instruction number ⟨"leave", []⟩ = .ok ⟨.leave, [], number⟩ := rfl
  have inside := here.inside
  have base : m.registers.ebp = r.ebp := by rw [here.registers]
  have only (line : Int) : Instr.accesses ⟨.leave, [], line⟩ m = [⟨m.registers.ebp, 4, false⟩] := rfl
  refine here.execute decodes (by decide) (by decide) (fun _ line access member => ?_)
    (fun line block _ => .inr (by simp [only])) (fun line => ?_) onward
  · rw [only, List.mem_singleton] at member
    subst member
    refine permitted_stack here.ready.inside ?_ (by rw [base]; exact high)
    rw [here.registers]
    exact low
  · have fine : accessible m.next.registers.ebp 4 = true := by
      rw [next_registers, base]
      exact accessible_stack (by omega) high
    rw [execute_leave fine, ← here.registers, ← here.memory, ← here.flags]
    rfl

/-- How `main` returns: the stack and the base are the caller's, and the status is zero. -/
structure Returned (P : Setting) (n : Machine) : Prop where
  halted : n.halted = true
  status : n.status = 0
  stack : n.registers.esp = memorySize.toUInt32
  base : n.registers.ebp = 0
  /-- No local label stands behind the return. -/
  apart : ∀ {k index : Nat}, P.layout.label? (localLabel k) = some index → n.pc ≠ index

/-- A return to the sentinel. -/
theorem leads_ret (valid : P.Valid)
    (here : At P blocks origin (.instruction "ret" [] ::
      Codegen.Builder.boundsRoutine P.platform) r memory flags m)
    (top : r.esp = (memorySize - 4).toUInt32) (base : r.ebp = 0) (zero : r.eax = 0)
    (back : memory.readWord r.esp = returnSentinel)
    (onward : ∀ n, Returned P n → n.sink = m.sink → goal blocks n) :
    Leads P.Watch goal blocks m := by
  have decodes (number : Nat) :
      P.layout.instruction number ⟨"ret", []⟩ = .ok ⟨.ret, [], number⟩ := rfl
  obtain ⟨line, fetched⟩ := here.fetched decodes
  have ready := here.ready
  have place : (memorySize - 4).toUInt32.toNat = memorySize - 4 := rfl
  have fine : accessible m.next.registers.esp 4 = true := by
    rw [next_registers, here.registers, top]
    decide
  have returns : m.next.memory.readWord m.next.registers.esp = returnSentinel := by
    rw [next_memory, next_registers, here.registers, here.memory, back]
  have stepped : m.step = (.ok (), { m.next with
      registers := m.next.registers.set .esp (m.next.registers.esp + 4)
      halted := true
      status := m.next.registers.eax.toInt }) := by
    rw [step_eq ready.running fetched, execute_ret fine returns]
  have only : Instr.accesses ⟨.ret, [], line⟩ m = [⟨m.registers.esp, 4, false⟩] := rfl
  have tracked : blocks.track m = blocks := by
    refine Ledger.track_eq (by simp [routine?_of_plain fetched]) fun block _ => .inr fun found => ?_
    have member := mem_accesses fetched found
    rw [only, List.mem_singleton] at member
    exact absurd (congrArg Access.isWrite member) Bool.noConfusion
  have watched : P.Watch blocks m := {
    safe := safe_of_allowed fetched fun access member => by
      rw [only, List.mem_singleton] at member
      subst member
      refine permitted_stack ready.inside (le_refl _) ?_
      rw [here.registers, top, place]
      decide
    tidy := ready.tidy
    returns := fun _ => by
      rw [here.registers, here.memory]
      exact ⟨back, top, base, zero⟩
    level := fun known index => here.before.level known index
    aligned := fun _ calls => by
      rw [fetched] at calls
      cases calls }
  refine .next ⟨ready.running, watched, stepped, tracked⟩ (.here (onward _ ?_ rfl))
  have behind : Before P (Codegen.Builder.boundsRoutine P.platform) m.next := here.before.next rfl
  refine ⟨rfl, ?_, ?_, ?_, fun {k index} known same => ?_⟩
  · change (m.next.registers.eax).toInt = 0
    rw [next_registers, here.registers, zero]
    rfl
  · change m.next.registers.esp + 4 = _
    rw [next_registers, here.registers, top]
    decide
  · change m.next.registers.ebp = 0
    rw [next_registers, here.registers, base]
  · obtain ⟨place, pc, placed, _⟩ := behind
    have there : P.layout.label? boundsLabel = some place := (Assembly.placed_label.mp placed).1
    have same : m.next.pc = index := same
    obtain rfl : index = place := by omega
    exact valid.apart there known

/-- The return from `main`. -/
theorem leads_leaving {s : Interpreter.State} (valid : P.Valid) (matched : Matches P s blocks [] m)
    (before : Before P (leaving ++ Codegen.Builder.boundsRoutine P.platform) m)
    (onward : ∀ n, Returned P n → n.sink = m.sink → goal blocks n) :
    Leads P.Watch goal blocks m := by
  obtain ⟨low, place, whole⟩ := matched.top
  have base : frameBase.toNat = memorySize - 8 := rfl
  refine (At.start matched.ready before).movl rfl rfl (readable_constant 0) (writable_register .eax _)
    fun n there => ?_
  refine there.leave ?_ ?_ fun o there => ?_
  · change m.registers.esp.toNat ≤ m.registers.ebp.toNat
    rw [matched.base, base]
    simp only [List.length_nil] at place
    omega
  · change m.registers.ebp.toNat + 4 ≤ memorySize
    rw [matched.base, base]
    decide
  · have next : m.registers.ebp + 4 = (memorySize - 4).toUInt32 := by
      rw [matched.base]
      decide
    refine leads_ret valid there next ?_ rfl ?_ fun p returned sink => onward p returned ?_
    · change m.memory.readWord m.registers.ebp = 0
      rw [matched.base]
      exact matched.stored.caller
    · change m.memory.readWord (m.registers.ebp + 4) = returnSentinel
      rw [next]
      exact matched.stored.back
    · rw [sink, there.sink]

end Frame

section Entry

variable {source : Source} {platform : Platform} {tree : List Stmt} {image : Image} {sink : Sink}
  {maxSteps : Int} {first : Machine} {l : Layout}

private theorem lookup_of_mem {locals : Context} {name : Bytes} {shape : Shape}
    (distinct : (locals.map Prod.fst).Nodup) (member : (name, shape) ∈ locals) :
    locals.lookup name = some shape := by
  induction locals with
  | nil => cases member
  | cons entry rest ih =>
    obtain ⟨fresh, distinct⟩ := List.nodup_cons.mp distinct
    rcases List.mem_cons.mp member with rfl | later
    · simp
    · have differ : (name == entry.1) = false := by
        rw [beq_eq_false_iff_ne]
        rintro rfl
        exact fresh (List.mem_map.mpr ⟨_, later, rfl⟩)
      rw [List.lookup, differ]
      exact ih distinct later

/-- The heap starts after the data, at a multiple of 16 below the stack. -/
theorem Loaded.heap_eq (loaded : Loaded source platform tree image sink maxSteps first) :
    first.heap.toNat = (dataBase.toNat + image.data.size + 15) / 16 * 16 := by
  have fits : dataBase.toNat + image.data.size ≤ heapLimit := loaded.fits
  have base : dataBase.toNat = 0x1000 := rfl
  have fifteen : (15 : Word).toNat = 15 := rfl
  have limit : heapLimit = 0xF0000 := rfl
  have small : image.data.size.toUInt32.toNat = image.data.size := Word.toNat_natCast (by omega)
  have sum : (dataBase + image.data.size.toUInt32).toNat = dataBase.toNat + image.data.size := by
    rw [Word.toNat_add_of_lt (by omega), small]
  have heap : first.heap = (dataBase + image.data.size.toUInt32 + 15) &&& ~~~15 := by
    rw [loaded.first_eq]
  rw [heap, Word.toNat_and_not 4 rfl, Word.toNat_add_of_lt (by omega), sum]
  rfl

/-- Memory is empty behind the data. -/
theorem Loaded.empty (loaded : Loaded source platform tree image sink maxSteps first) (a : Word)
    (behind : dataBase.toNat + image.data.size ≤ a.toNat) : first.memory.read a = 0 := by
  have fits : dataBase.toNat + image.data.size ≤ heapLimit := loaded.fits
  have limit : heapLimit = 0xF0000 := rfl
  have bound := a.toNat_lt
  have same : Memory.Same (dataBase.toNat + image.data.size) 0x100000000 {} first.memory := by
    rw [loaded.first_eq]
    refine Memory.same_writeBytes ?_ (.inl ?_)
    · rw [Array.length_toList]
      omega
    · rw [Array.length_toList]
  rw [same a behind bound]
  simp [Memory.read]

/-- The memory of a program whose frame was set up. -/
def framed (first : Machine) : Memory :=
  (first.memory.writeWord (memorySize - 4).toUInt32 returnSentinel).writeWord frameBase 0

/-- At first all variables are zero or null, and there are no arrays. -/
theorem Loaded.stored (loaded : Loaded source platform tree image sink maxSteps first)
    (valid : (settingOf platform tree l image first).Valid)
    (fits : (settingOf platform tree l image first).Fits) :
    Stored (settingOf platform tree l image first)
      (.initial (settingOf platform tree l image first).locals (heapLimit - first.heap.toNat)) []
      (framed first) first.heap := by
  have data : dataBase.toNat + image.data.size ≤ heapLimit := loaded.fits
  have heap := loaded.heap_eq
  have limit : heapLimit = 0xF0000 := rfl
  have top : memorySize = 0x100000 := rfl
  have base : frameBase.toNat = memorySize - 8 := rfl
  have back : (memorySize - 4).toUInt32.toNat = memorySize - 4 := rfl
  have same : Memory.Same 0 (memorySize - 8) first.memory (framed first) :=
    (Memory.same_writeWord _ (by omega) (.inr (by omega))).trans
      (Memory.same_writeWord _ (by omega) (.inr (by omega)))
  have zero (a : Word) (low : dataBase.toNat + image.data.size ≤ a.toNat)
      (high : a.toNat < memorySize - 8) : (framed first).read a = 0 := by
    rw [same a (Nat.zero_le _) high]
    exact loaded.empty a low
  refine
    { data := same.mono (le_refl _) ?_
      slot := fun {i name shape} found => ?_
      caller := Memory.readWord_writeWord _ (by omega)
      back := ?_
      count := rfl
      cell := nofun
      tidy := .nil ..
      low := ?_
      aligned := by omega
      room := by simp only [Interpreter.State.initial]; omega
      fresh := fun a above below => zero a (by omega) (by omega) }
  · change dataBase.toNat + image.data.size ≤ _
    omega
  · have bound := (List.getElem?_eq_some_iff.mp found).1
    have place := toNat_slotAddress i
    have member := List.mem_of_getElem? found
    have word : (framed first).readWord (slotAddress i) = 0 := by
      have frame : heapLimit + 4 * (settingOf platform tree l image first).locals.length ≤
        memorySize - 8 := fits
      exact Memory.readWord_zero zero (by omega) (by omega) (by omega)
    have initial : (Interpreter.State.initial (settingOf platform tree l image first).locals
        (heapLimit - first.heap.toNat)).binding name = .initial shape := by
      have known : (settingOf platform tree l image first).locals.lookup name = some shape :=
        lookup_of_mem valid.names member
      simp [Interpreter.State.initial, known]
    rw [word, initial]
    exact represents_initial (valid.writable _ member)
  · have other : Memory.Same (memorySize - 4) memorySize
        (first.memory.writeWord (memorySize - 4).toUInt32 returnSentinel) (framed first) :=
      Memory.same_writeWord _ (by omega) (.inl (by omega))
    rw [other.readWord (by omega) (by omega) (by omega)]
    exact Memory.readWord_writeWord _ (by omega)
  · change dataBase.toNat + image.data.size ≤ _
    omega

/-- Setting up the frame leads to the state in which the interpreter starts, unless the frame does
not fit. -/
theorem Loaded.leads_entering (loaded : Loaded source platform tree image sink maxSteps first)
    {goal : Ledger → Machine → Prop} {rest : Code}
    (valid : (settingOf platform tree l image first).Valid)
    (before : Before (settingOf platform tree l image first)
      (entering (Generator.program platform tree).2.context.length ++ rest) (entered first))
    (onward : ∀ n, Matches (settingOf platform tree l image first)
        (.initial (Generator.program platform tree).2.context (heapLimit - first.heap.toNat)) [] []
          n → Before (settingOf platform tree l image first) rest n →
      Leads (settingOf platform tree l image first).Watch goal [] n) :
    Leads (settingOf platform tree l image first).Watch goal [] (entered first) := by
  have few := Syntax.length_locals_le loaded.parsed loaded.typed
  have limit := loaded.limit
  have inside : (entered first).InStack := by
    change heapLimit ≤ (memorySize - 4).toUInt32.toNat ∧
      (memorySize - 4).toUInt32.toNat ≤ memorySize
    decide
  have ready : Ready (settingOf platform tree l image first) [] (entered first) := by
    refine ⟨?_, ?_, ?_, inside, .nil ..⟩
    · rw [loaded.first_eq]
      rfl
    · rw [loaded.first_eq]
      rfl
    · rw [loaded.first_eq]
      rfl
  have base : (entered first).registers.get .ebp = 0 := by
    rw [loaded.first_eq]
    rfl
  have sealed : Ledger.Sealed [] := fun _ member => absurd member List.not_mem_nil
  have top : (entered first).registers.esp - 4 = frameBase := by
    change (memorySize - 4).toUInt32 - 4 = frameBase
    decide
  refine (At.start ready before).pushl sealed rfl (readable_register .ebp) rfl fun n there => ?_
  refine there.movl rfl rfl (readable_register .esp) (writable_register .ebp _) fun o there => ?_
  refine there.arithmetic rfl rfl rfl rfl (readable_constant _) (readable_register .esp)
    (writable_register .esp _) fun p there => onward p ?_ there.before
  obtain ⟨low, high⟩ := there.inside
  have lowest : p.registers.esp = frameBase -
      Word.ofInt (wordSize * (Generator.program platform tree).2.context.length : Nat) := by
    rw [there.registers, ← top]
    rfl
  rw [← there.registers, lowest, UInt32.toNat_sub] at low high
  generalize size : (Generator.program platform tree).2.context.length = count at *
  have offset : (Word.ofInt (wordSize * count : Nat)).toNat = 4 * count := by
    rw [Word.ofInt_natCast, Word.toNat_natCast]
    · rfl
    · simp only [wordSize, Source.wordLimit] at *
      omega
  have frame : frameBase.toNat = 0x100000 - 8 := rfl
  have floor : heapLimit = 0xF0000 := rfl
  have ceiling : memorySize = 0x100000 := rfl
  have same : (settingOf platform tree l image first).locals.length = count := size
  -- A frame that does not fit leaves the stack, even if the subtraction wraps.
  have fits : (settingOf platform tree l image first).Fits := by
    rw [Setting.Fits, same]
    simp only [Source.wordLimit] at limit
    omega
  have memory : p.memory = framed first := by
    rw [there.memory, base, top]
    rfl
  refine ⟨there.ready, ?_, ⟨?_, fun found => absurd found (by simp)⟩, ?_, ?_⟩
  · rw [there.registers]
    exact top
  · rw [lowest, UInt32.toNat_sub, Setting.frameBottom, same, List.length_nil]
    rw [Setting.Fits, same] at fits
    omega
  · rw [memory, there.heap]
    exact loaded.stored valid fits
  · rw [there.sink]
    exact (List.append_nil _).symm

/-- How a program that was started ends when the interpreter is asked to follow loops for a number
of rounds. -/
inductive Finished (P : Setting) (fuel : Nat) :
    Except Interpreter.Stop Unit × Interpreter.State → Ledger → Machine → Prop where
  | returned {after : Interpreter.State} {later : Ledger} {n : Machine} (returned : Returned P n)
      (tidy : later.Tidy P.dataEnd heapLimit)
      (output : n.sink.written = P.written ++ after.output) :
      Finished P fuel (.ok (), after) later n
  | stopped {reason : Interpreter.Stop} {after : Interpreter.State} {later : Ledger} {n : Machine}
      (fails : Fails P after reason later n) : Finished P fuel (.error reason, after) later n
  | unfinished {after : Interpreter.State} {later : Ledger} {n : Machine} (late : fuel ≤ n.steps) :
      Finished P fuel (.error .unfinished, after) later n

/-- A program does what the interpreter does. -/
theorem Loaded.leads (loaded : Loaded source platform tree image sink maxSteps first) (fuel : Nat)
    (valid : (settingOf platform tree l image first).Valid)
    (before : Before (settingOf platform tree l image first) (mainCode platform tree)
      (entered first)) :
    Leads (settingOf platform tree l image first).Watch
      (Finished (settingOf platform tree l image first) fuel
        (Interpreter.run (Generator.program platform tree).2.context
          (heapLimit - first.heap.toNat) fuel tree)) [] (entered first) := by
  refine loaded.leads_entering valid before fun n matched before => ?_
  have agrees : Agrees (settingOf platform tree l image first)
      (Generator.statements platform tree {}).2 :=
    ⟨Generator.LaidOut.statements (g := {}) rfl platform tree, List.prefix_rfl, List.prefix_rfl⟩
  have narrow := (Syntax.extent_of_parse loaded.parsed).2.2 loaded.limit
  have runs : Runs (settingOf platform tree l image first) _ fuel _ :=
    runs_statements valid tree (g := {}) rfl agrees narrow loaded.typed
  refine (runs matched before).trans fun later o ran => ?_
  change Leads _ (Finished _ fuel (perform (Interpreter.execAll
    (settingOf platform tree l image first).locals fuel tree) _)) later o
  generalize perform (Interpreter.execAll (settingOf platform tree l image first).locals fuel tree)
    _ = outcome at ran ⊢
  cases ran with
  | done matched before =>
    refine leads_leaving valid matched before fun p returned same =>
      .returned returned matched.ready.tidy ?_
    rw [same]
    exact matched.output
  | stopped fails => exact .here (.stopped fails)
  | unfinished late => exact .here (.unfinished (by omega))

/-- A program that was loaded starts at `main` and does what the interpreter does. -/
theorem Loaded.exists_layout (loaded : Loaded source platform tree image sink maxSteps first) :
    ∃ l : Layout, image.symbols = l.symbols ∧ image.labels = l.labels ∧
      (settingOf platform tree l image first).Valid ∧
      first.start (platform.symbol "main") = (.ok (), entered first) ∧
      ∀ fuel, Leads (settingOf platform tree l image first).Watch
        (Finished (settingOf platform tree l image first) fuel
          (Interpreter.run (Generator.program platform tree).2.context
            (heapLimit - first.heap.toNat) fuel tree)) [] (entered first) := by
  obtain ⟨l, symbols, same, laid, placed⟩ := Generator.passes_program loaded.assembled
  have labels := same.symm.trans (Generator.labels_program loaded.assembled)
  have valid := loaded.valid laid placed labels
  exact ⟨l, symbols, same, valid, loaded.start_eq same placed,
    fun fuel => loaded.leads fuel valid (before_main labels placed rfl)⟩

/-- In every state that a program reaches inside its stack, it runs and what is watched holds, or it
has returned. -/
theorem watch_of_reaches {P : Setting}
    {outcome : Nat → Except Interpreter.Stop Unit × Interpreter.State} {m n : Machine}
    {blocks : Ledger} (leads : ∀ fuel, Leads P.Watch (Finished P fuel (outcome fuel)) [] m)
    (reaches : Reaches [] m blocks n) :
    n.halted = false ∧ P.Watch blocks n ∨ Returned P n ∧ blocks.Tidy P.dataEnd heapLimit := by
  have leads := leads (n.steps + 1)
  generalize outcome (n.steps + 1) = result at leads
  rcases leads.of_reaches reaches with onward | ⟨between, middle, _, reached, later⟩
  · cases onward with
    | here reached =>
      cases reached with
      | returned returned tidy _ => exact .inr ⟨returned, tidy⟩
      | stopped fails => exact .inl ⟨fails.running, fails.watched⟩
      | unfinished late => exact absurd late (Nat.not_succ_le_self _)
    | spilled left => exact absurd reaches.inside left
    | refused running watched _ _ _ => exact .inl ⟨running, watched⟩
    | next moves _ => exact .inl ⟨moves.running, moves.watched⟩
  · have count := later.steps_le
    cases reached with
    | returned returned tidy _ =>
      obtain ⟨rfl, rfl⟩ := later.of_halted returned.halted
      exact .inr ⟨returned, tidy⟩
    | stopped fails =>
      obtain ⟨stop, after, stepped, _⟩ := fails.stopped
      obtain ⟨rfl, rfl⟩ := later.of_error (by rw [stepped])
      exact .inl ⟨fails.running, fails.watched⟩
    | unfinished late => omega

end Entry

end Simulation

namespace Compiler

/-- A program that was loaded on a new machine. -/
theorem loaded_of_compile {source : Source} {platform : Platform} {text : Bytes}
    {image : Assembly.Image} {sink : Sink} {maxSteps : Int} {first : Machine}
    (compiled : compile source platform = .ok text) (assembled : Assembly.assemble text = .ok image)
    (limit : source.text.length ≤ Source.wordLimit)
    (loads : Machine.load { sink, maxSteps } image = .ok first) :
    ∃ tree, Simulation.Loaded source platform tree image sink maxSteps first ∧
      run source platform = .of platform (Generator.program platform tree).1
        (Generator.program platform tree).2 := by
  obtain ⟨tree, parsed, typed, outcome, rfl⟩ := accepted_of_compile compiled
  exact ⟨tree, ⟨limit, parsed, typed, assembled, loads⟩, outcome⟩

/-- What a computation with the loaded program of a source shows about it. -/
theorem exists_loaded {α : Type} {source : Source} {platform : Platform}
    {compute : Assembly.Image → Machine → Option α} {a : α}
    (computed : ((compile source platform).toOption.bind fun text =>
      (Assembly.assemble text).toOption.bind fun image =>
        (Machine.load {} image).toOption.bind fun first => compute image first) = some a) :
    ∃ text image first, compile source platform = .ok text ∧
      Assembly.assemble text = .ok image ∧ Machine.load {} image = .ok first ∧
      compute image first = some a := by
  have ok_of_toOption {ε β : Type} {result : Except ε β} {b : β}
      (found : result.toOption = some b) : result = .ok b := by
    cases result with
    | error _ => cases found
    | ok _ => exact congrArg Except.ok (Option.some.inj found)
  obtain ⟨text, compiled, computed⟩ := Option.bind_eq_some_iff.mp computed
  obtain ⟨image, assembled, computed⟩ := Option.bind_eq_some_iff.mp computed
  obtain ⟨first, loads, computed⟩ := Option.bind_eq_some_iff.mp computed
  exact ⟨text, image, first, ok_of_toOption compiled, ok_of_toOption assembled,
    ok_of_toOption loads, computed⟩

end Compiler

end Onepass
