import Onepass.Proofs.Frame.Journal
import Onepass.Proofs.Lockstep.Program

/-! The frame of a whole program. At the end of every compilation, also of one that failed, the
variables, the size of the frame, the operands that lie in it and the stores to it belong together. -/
namespace Onepass

open Assembly (Code Line)
open Codegen (Builder)
open Syntax (Cursor Stmt parse)

namespace Codegen

theorem slotOperand_eq (slot : Nat) :
    slotOperand slot = .based (some (.number (wrap (-4 * (slot + 1))))) "ebp" := by
  have offset : -((slot : Int) + 1) * (wordSize : Nat) = -4 * (slot + 1) := by
    rw [wordSize]
    omega
  rw [slotOperand, based, frameOffset, offset]
  simp only [wrap, Int.bmod_bmod]

/-- An offset into a frame that is not huge. -/
theorem wrap_offset {slot : Nat} (small : slot < 0x2000000000000000) :
    wrap (-4 * (slot + 1)) = -4 * (slot + 1) := by
  rw [wrap]
  apply Int.bmod_eq_of_le <;> omega

namespace Builder

/-- The functions of a program, closed or open. -/
def functions (b : Builder) : List Frame := b.finished ++ b.frame.toList

/-- All code so far: that of the program, of the open function and of the captures. -/
def lines (b : Builder) : Code := b.program ++ b.body ++ b.captures.flatten

/-- Closing a function leaves it a function of the program. -/
theorem endFunction_functions (b : Builder) :
    (perform endFunction b).2.functions = b.functions ∧
      (perform endFunction b).2.captures = b.captures := by
  obtain ⟨platform, label, captures, _ | frame, finished, strings⟩ := b
  · exact ⟨rfl, rfl⟩
  · exact ⟨List.append_nil _, rfl⟩

theorem isFrameless_data (b : Builder) : b.data.isFrameless = true := by
  have pooled {area : Bytes × Nat → Code} (free : ∀ entry, (area entry).isFrameless = true) :
      Code.isFrameless (b.strings.zipIdx.flatMap area) = true := by
    rw [Code.isFrameless, List.all_flatMap]
    exact List.all_eq_true.mpr fun entry _ => free entry
  simp only [data, Code.isFrameless_append]
  rw [pooled fun _ => rfl]
  rfl

/-- The code around the bodies of functions leaves the frame alone. -/
theorem addresses_placed {b : Builder} {scope : Scope Ty}
    (bodies : ∀ frame ∈ b.functions, ∀ line ∈ frame.body, line.Addresses scope) :
    ∀ line ∈ b.program ++ b.body, line.Addresses scope := by
  have outside {code : Code} (free : code.isFrameless = true) (line : Line) (member : line ∈ code) :
      line.Addresses scope := (Code.isFrameless.reads free scope line member).2
  intro line member
  simp only [program, List.mem_append, List.mem_flatMap] at member
  rcases member with (((inside | inside) | ⟨frame, closed, inside⟩) | inside) | inside
  · exact outside b.isFrameless_data line inside
  · exact outside rfl line inside
  · simp only [function, List.mem_append] at inside
    rcases inside with (inside | inside) | inside
    · exact outside rfl line inside
    · exact bodies frame (List.mem_append_left _ closed) line inside
    · exact outside rfl line inside
  · refine outside ?_ line inside
    unfold boundsRoutine
    split <;> rfl
  · cases opened : b.frame with
    | none =>
      rw [body, opened] at inside
      cases inside
    | some frame =>
      rw [body, opened] at inside
      refine bodies frame (List.mem_append_right _ ?_) line inside
      rw [opened]
      exact List.mem_singleton_self frame

end Builder

end Codegen

namespace Compiler

/-- Whether the variables, the frame and the code that a compilation leaves behind agree with each
other and with the names of the plain assignments that it completed. -/
structure Outcome.Consistent (o : Outcome) (assigned : List Bytes) : Prop where
  declared : o.scope.entries.map (·.name) = assigned.eraseDups
  distinct : (o.scope.entries.map (·.name)).Nodup
  slots : ∀ (i : Nat) (v : Variable Ty), o.scope.entries[i]? = some v → v.slot = i
  size : o.scope.size = o.scope.entries.length
  general : ∀ v ∈ o.scope.entries, v.type.constant = false
  frame : ∀ frame ∈ o.builder.functions, frame.name = "main" ∧ frame.size = 4 * o.scope.size
  addresses : ∀ line ∈ o.builder.lines, ∀ operand ∈ line.operands, operand.isLocal = true →
    ∃ v ∈ o.scope.entries,
      operand = .based (some (.number (Codegen.wrap (-4 * (v.slot + 1))))) "ebp"
  /-- Offsets into the frame do not wrap around. -/
  inside : o.scope.size ≤ 0x2000000000000000 → ∀ v ∈ o.scope.entries,
    Codegen.wrap (-4 * (v.slot + 1)) = -4 * (v.slot + 1) ∧
      -(4 * o.scope.size : Int) ≤ -4 * (v.slot + 1)
  stores : List.Forall₂ (fun name line => ∃ v ∈ o.scope.entries, v.name = name ∧
      line = .instruction "movl" [if v.type.isHeap then Codegen.esi else Codegen.eax,
        .based (some (.number (Codegen.wrap (-4 * (v.slot + 1))))) "ebp"])
    assigned ((o.builder.functions.flatMap Codegen.Frame.body).filter Line.isFrameStore)
  /-- Code that waits for its place stores nothing. -/
  captures : ∀ code ∈ o.builder.captures, ∀ line ∈ code, line.isFrameStore = false

section

variable {names : List Bytes} {scope : Scope Ty} {stores : Code} (records : Records names scope stores)

include records

/-- A variable lies in the slot of its position, and its type is not that of a literal. -/
theorem Records.slot {i : Nat} {v : Variable Ty} (found : scope.entries[i]? = some v) :
    v.slot = i ∧ v.type.constant = false := by
  have laid : scope.entries = (Generator.slots (Generator.context { scope })).entries :=
    congrArg Scope.entries records.laidOut
  rw [laid, Generator.slots, List.getElem?_map, List.getElem?_zipIdx] at found
  cases entry : (Generator.context { scope })[i]? with
  | none =>
    rw [entry] at found
    cases found
  | some entry_ =>
    rw [entry] at found
    cases found
    exact ⟨Nat.zero_add i, rfl⟩

/-- An outcome is consistent if its variables and the stores of its functions have been recorded. -/
theorem Records.consistent {o : Outcome} (located : o.scope = scope)
    (frame : ∀ frame ∈ o.builder.functions, frame.name = "main" ∧ frame.size = 4 * scope.size)
    (kept : (o.builder.functions.flatMap Codegen.Frame.body).filter Line.isFrameStore = stores)
    (addresses : ∀ frame ∈ o.builder.functions, ∀ line ∈ frame.body, line.Addresses scope)
    (captures : ∀ code ∈ o.builder.captures, Code.Reads scope code) : o.Consistent names := by
  subst located kept
  have size : o.scope.size = o.scope.entries.length := Nat.mul_one _
  have slot (v : Variable Ty) (known : v ∈ o.scope.entries) :
      v.slot < o.scope.size ∧ v.type.constant = false := by
    obtain ⟨i, found⟩ := List.mem_iff_getElem?.mp known
    obtain ⟨same, general⟩ := records.slot found
    rw [same, size]
    exact ⟨(List.getElem?_eq_some_iff.mp found).1, general⟩
  refine ⟨records.declared, ?_, fun i v found => (records.slot found).1, size,
    fun v known => (slot v known).2, frame, ?_, ?_, ?_, ?_⟩
  · rw [records.declared]
    exact nodup_eraseDups names
  · intro line member operand inside here
    have located : line.Addresses o.scope := by
      rcases List.mem_append.mp member with placed | captured
      · exact Builder.addresses_placed addresses line placed
      · obtain ⟨code, listed, inside⟩ := List.mem_flatten.mp captured
        exact (captures code listed line inside).2
    obtain ⟨v, known, same⟩ := located operand inside here
    exact ⟨v, known, same.trans (Codegen.slotOperand_eq v.slot)⟩
  · intro small v known
    have below := (slot v known).1
    exact ⟨Codegen.wrap_offset (below.trans_le small), by omega⟩
  · refine records.stores.imp ?_
    rintro name line ⟨v, known, same, stored⟩
    refine ⟨v, known, same, ?_⟩
    rw [v.store_eq, List.cons.injEq, Codegen.slotOperand_eq] at stored
    exact stored.1.symm
  · exact fun code listed line inside => (captures code listed line inside).1

/-- The same if `main` is the only function. -/
theorem Records.consistent_main {o : Outcome} {body : Code} (located : o.scope = scope)
    (main : o.builder.functions = [⟨"main", (wordSize * scope.size : Nat), body⟩])
    (kept : body.filter Line.isFrameStore = stores)
    (addresses : ∀ line ∈ body, line.Addresses scope)
    (captures : ∀ code ∈ o.builder.captures, Code.Reads scope code) : o.Consistent names := by
  have only {motive : Codegen.Frame → Prop}
      (holds : motive ⟨"main", (wordSize * scope.size : Nat), body⟩) :
      ∀ frame ∈ o.builder.functions, motive frame := by
    rw [main]
    exact List.forall_mem_singleton.mpr holds
  refine records.consistent located (only ⟨rfl, rfl⟩) ?_ (only addresses) captures
  rw [main, List.flatMap_singleton]
  exact kept

end

theorem Session.At.filter_body {stage : Stage} {depth : Nat} {s : Session} (at_ : s.At stage depth) :
    s.builder.body.filter Line.isFrameStore = stage.stores := by
  obtain ⟨body, opened, kept, _⟩ := at_.frame
  rw [Builder.body, opened]
  exact kept

/-- A compilation that is at a stage leaves behind what is consistent with the record. -/
theorem Session.At.consistent {source : Source} {names : List Bytes} {scope : Scope Ty}
    {stores : Code} {depth : Nat} {s : Session} {o : Outcome}
    (at_ : s.At ⟨source, scope, stores⟩ depth) (records : Records names scope stores)
    (located : o.scope = s.scope) (functions : o.builder.functions = s.builder.functions)
    (captures : o.builder.captures = s.builder.captures) : o.Consistent names := by
  obtain ⟨body, opened, kept, addresses⟩ := at_.frame
  refine records.consistent_main (located.trans at_.scope) ?_ kept addresses (captures ▸ at_.captures)
  rw [functions, Builder.functions, at_.finished, opened]
  rfl

theorem Journaled.run_eq {source : Source} {cursor : Cursor} (platform : Platform)
    (start : Cursor.ofSource source = .ok cursor) :
    Journaled.run source platform =
      match perform (Journaled.statements cursor.remaining) (.of platform cursor {} {}, []) with
      | (.ok _, s, names) => (⟨.ok (), s.scope, (perform Builder.endFunction s.builder).2⟩, names)
      | (.error failure, s, names) => (⟨.error failure, s.scope, s.builder⟩, names) := by
  have whole : Journaled.run source platform =
      (⟨(perform Journaled.program (⟨cursor, {}, { platform }⟩, [])).1,
        (perform Journaled.program (⟨cursor, {}, { platform }⟩, [])).2.1.scope,
        (perform Journaled.program (⟨cursor, {}, { platform }⟩, [])).2.1.builder⟩,
        (perform Journaled.program (⟨cursor, {}, { platform }⟩, [])).2.2) := by
    simp only [Journaled.run, start]
  have opened : perform Journaled.program (⟨cursor, {}, { platform }⟩, []) =
      perform (do Journaled.statements cursor.remaining; Journaled.of (build Builder.endFunction))
        (.of platform cursor {} {}, []) := rfl
  rw [whole, opened, perform_bind]
  rcases perform (Journaled.statements cursor.remaining) (.of platform cursor {} {}, []) with
    ⟨_ | _, _⟩
  · rfl
  · rfl

theorem Session.At.opened {source : Source} {cursor : Cursor}
    (start : Cursor.ofSource source = .ok cursor) (platform : Platform) :
    Session.At ⟨source, {}, []⟩ 0 (.of platform cursor {} {}) := by
  have within := Cursor.ofSource_within source
  rw [start] at within
  exact ⟨within, rfl, ⟨[], rfl, rfl, by rintro _ ⟨⟩⟩, rfl, by rintro _ ⟨⟩, rfl⟩

/-- A compilation that records ends as the compilation does. What it leaves behind is consistent with
the record, and a report points into the source. -/
theorem run_recorded (source : Source) (platform : Platform) :
    (Journaled.run source platform).1 = run source platform ∧
      (run source platform).Consistent (Journaled.run source platform).2 ∧
      ∀ d, (run source platform).result = .error (.diagnostic d) → d.PointsInto source := by
  have initial : Records [] {} [] := ⟨rfl, rfl, .nil⟩
  cases start : Cursor.ofSource source with
  | error e =>
    have reported := Cursor.ofSource_within source
    rw [start] at reported
    simp only [Journaled.run, run, start]
    refine ⟨trivial, initial.consistent rfl ?_ rfl ?_ ?_, ?_⟩
    · rintro _ ⟨⟩
    · rintro _ ⟨⟩
    · rintro _ ⟨⟩
    · rintro d ⟨⟩
      exact reported
  | ok cursor =>
    have ended := Follows.statements cursor.remaining _ _ _ _ initial (.opened start platform)
    rw [Journaled.run_eq platform start, run_eq platform start]
    generalize perform (Journaled.statements _) _ = journaled at ended
    generalize perform (statements _) _ = result at ended
    cases ended with
    | success records at_ =>
      obtain ⟨functions, captures⟩ := Builder.endFunction_functions _
      exact ⟨rfl, at_.consistent records rfl functions captures, by rintro _ ⟨⟩⟩
    | failure reported records at_ =>
      refine ⟨rfl, at_.consistent records rfl rfl rfl, ?_⟩
      rintro d ⟨⟩
      exact reported d rfl

/-- A program that was compiled is consistent with the plain assignments of its tree. -/
private theorem consistent_of_parse {source : Source} {platform : Platform} {tree : List Stmt}
    (parsed : parse source = .ok tree) (accepted : (run source platform).result = .ok ()) :
    (run source platform).Consistent (Stmt.allAssignments tree) := by
  cases verdict source platform with
  | accepted other read typed outcome =>
    rw [parsed, Except.ok.injEq] at read
    subst read
    obtain ⟨stored, _⟩ := Generator.stores_statements platform tree {}
    have names : (Generator.program platform tree).2.scope.entries.map (·.name) =
        (Stmt.allAssignments tree).eraseDups := by
      simpa [Stmt.assignments, Generator.context, Function.comp_def] using typed.names
    have records : Records (Stmt.allAssignments tree) (Generator.program platform tree).2.scope _ :=
      ⟨names, Generator.LaidOut.statements (g := {}) rfl platform tree, stored.stores⟩
    rw [outcome]
    exact records.consistent_main rfl rfl rfl stored.addresses (by rintro _ ⟨⟩)
  | refused _ _ failed | illTyped _ _ failed _ =>
    rw [failed] at accepted
    cases accepted

/-- The variables and the frame stay consistent. A compilation, whether it succeeds or not, leaves
behind variables with distinct names in consecutive slots, a frame with room for exactly these, code
that uses only their slots, and one store for each plain assignment that was completed, in order. A
compilation that succeeds has completed all plain assignments of the program. An assignment that is
refused has left neither a variable nor a store. -/
theorem run_keeps_frame (source : Source) (platform : Platform) :
    (Journaled.run source platform).1 = run source platform ∧
    (run source platform).Consistent (Journaled.run source platform).2 ∧
    (∀ tree, parse source = .ok tree → (run source platform).result = .ok () →
      (run source platform).Consistent (Stmt.allAssignments tree)) ∧
    ∀ (stage : Stage) (s after : Session) (failure : Failure), s.At stage 0 →
      perform assignment s = (.error failure, after) →
      after.scope = s.scope ∧
        after.builder.body.filter Line.isFrameStore = s.builder.body.filter Line.isFrameStore := by
  obtain ⟨same, consistent, _⟩ := run_recorded source platform
  refine ⟨same, consistent, fun tree => consistent_of_parse, fun stage s after failure at_ refused => ?_⟩
  have ends := at_.assignment
  rw [refused] at ends
  obtain ⟨depth, later⟩ : ∃ depth, after.At stage depth := by
    split at ends
    · cases ends with
      | failure _ at_ => exact ⟨_, at_⟩
    · cases ends with
      | failure _ at_ => exact ⟨_, at_⟩
  refine ⟨later.scope.trans at_.scope.symm, ?_⟩
  rw [later.filter_body, at_.filter_body]

/-- A program that assigns to one variable in a branch and stores to an element. -/
private def branched : Source :=
  ⟨[], "a = [1, 2] if a[0] < 2 \x7b n = a[1] \x7d else n = 3 a[1] = n a = [n]"⟩

/-- A program whose last assignment has the wrong type. -/
private def mistyped : Source := ⟨[], "n = 1 s = \"x\" n = n + 2 c = 'c' n = s"⟩

/-- An assignment without a value. -/
private def unfinished : Source := ⟨[], "n = "⟩

theorem run_keeps_frame_samples :
    (run mistyped .linux).result.isOk = false ∧
    (run mistyped .linux).Consistent ["n", "s", "n", "c"] ∧
    (∃ tree, parse branched = .ok tree ∧
      (run branched .linux).Consistent (Stmt.allAssignments tree)) ∧
    ∃ s failure after, perform assignment s = (.error failure, after) ∧ after.scope = s.scope := by
  refine ⟨by decide +kernel, ?_, ?_, ?_⟩
  · have recorded : (Journaled.run mistyped .linux).2 = (["n", "s", "n", "c"] : List Bytes) := by
      decide +kernel
    rw [← recorded]
    exact (run_keeps_frame mistyped .linux).2.1
  · have read : (parse branched).isOk = true := by decide +kernel
    cases parsed : parse branched with
    | ok tree =>
      exact ⟨tree, rfl, (run_keeps_frame branched .linux).2.2.1 tree parsed
        (eq_ok_of_isOk (by decide +kernel))⟩
    | error _ =>
      rw [parsed] at read
      cases read
  · have refused : ((Cursor.ofSource unfinished).map fun cursor =>
        (perform assignment (.of .linux cursor {} {})).1.isOk) = .ok false := by decide +kernel
    cases start : Cursor.ofSource unfinished with
    | error _ =>
      rw [start] at refused
      cases refused
    | ok cursor =>
      rw [start, Except.map, Except.ok.injEq] at refused
      rcases ended : perform assignment (.of .linux cursor {} {}) with ⟨failure | _, after⟩
      · exact ⟨_, failure, after, ended, ((run_keeps_frame unfinished .linux).2.2.2 _ _ _ _
          (.opened start .linux) ended).1⟩
      · rw [ended] at refused
        cases refused

end Compiler

end Onepass
