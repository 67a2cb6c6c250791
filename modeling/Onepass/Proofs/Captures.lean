import Onepass.Codegen.Builder
import Onepass.Proofs.Action

/-! Captured code. Calls that end the captures they begin do the same wherever they are made: what they
add goes to the buffer around them, and the rest of the builder does not depend on which buffer that
is. So code that is captured and put in place at once is the code that would have been added without
the capture. -/
namespace Onepass.Codegen

open Assembly (Code)
open Builder

/-- The calls of a builder while a function is open. Looking at a builder is no call. -/
inductive Call
  /-- Adds code: labels, jumps, instructions and the calls of routines are all of this kind. -/
  | emit (code : Platform → Code)
  | reserve (bytes : Int)
  | newLabel
  | addString (value : Bytes)
  | beginCapture
  | endCapture
  /-- Adds the code of a capture that has ended, counted from the first one that did. -/
  | splice (index : Nat)

namespace Call

/-- Makes a call after some captures have ended: the labels it gives, and the code of the capture it
ends. -/
def make (ended : List Code) : Call → Build (List Bytes × List Code)
  | .emit code => do
    emitFor code
    return ([], [])
  | .reserve bytes => do
    Builder.reserve bytes
    return ([], [])
  | .newLabel => do
    let label ← Builder.newLabel
    return ([label], [])
  | .addString value => do
    let label ← Builder.addString value
    return ([label], [])
  | .beginCapture => do
    Builder.beginCapture
    return ([], [])
  | .endCapture => do
    let code ← Builder.endCapture
    return ([], [code])
  | .splice index => do
    Builder.emit (ended.getD index [])
    return ([], [])

/-- The code that a call adds where it is made. -/
def lines (platform : Platform) (ended : List Code) : Call → Code
  | .emit code => code platform
  | .splice index => ended.getD index []
  | _ => []

/-- The number of open captures after a call. -/
def depth (depth : Nat) : Call → Nat
  | .beginCapture => depth + 1
  | .endCapture => depth - 1
  | _ => depth

/-- The number of ended captures after a call. -/
def count (ended : Nat) : Call → Nat
  | .endCapture => ended + 1
  | _ => ended

/-- Whether a call ends no capture but an open one, and adds only code of ended ones. -/
def isAllowed (depth ended : Nat) : Call → Bool
  | .endCapture => 0 < depth
  | .splice index => index < ended
  | _ => true

end Call

/-- Makes calls one after another: the labels they give, and the code of all ended captures. -/
def makeAll (ended : List Code) : List Call → Build (List Bytes × List Code)
  | [] => return ([], ended)
  | call :: rest => do
    let (labels, captured) ← call.make ended
    let (others, all) ← makeAll (ended ++ captured) rest
    return (labels ++ others, all)

/-- Whether calls, made inside of a number of captures of their own, end all of them and no others,
and add only code that was captured before. -/
def isBalanced (depth ended : Nat) : List Call → Bool
  | [] => depth == 0
  | call :: rest =>
    call.isAllowed depth ended && isBalanced (call.depth depth) (call.count ended) rest

/-- The code that calls add while none of their own captures is open. -/
def reaching (platform : Platform) (ended : List Code) (depth : Nat) : List Call → Code
  | [] => []
  | call :: rest =>
    (if depth = 0 then call.lines platform ended else []) ++
      reaching platform ended (call.depth depth) rest

namespace Builder

/-- The buffers of code under construction, innermost first. -/
def buffers (b : Builder) : List Code := b.captures ++ [b.body]

/-- A builder with code added to its buffer. -/
def add (b : Builder) (code : Code) : Builder :=
  match b.captures with
  | inner :: outer => { b with captures := (inner ++ code) :: outer }
  | [] => { b with frame := b.frame.map fun frame => { frame with body := frame.body ++ code } }

/-- A builder that goes on in the buffer of another one: its body is added there, and its captures
lie inside. -/
def within (b around : Builder) : Builder :=
  match around.captures with
  | inner :: outer =>
    { b with
      captures := b.captures ++ (inner ++ b.body) :: outer
      frame := b.frame.map fun frame => { frame with body := around.body } }
  | [] =>
    { b with frame := b.frame.map fun frame => { frame with body := around.body ++ frame.body } }

/-- A builder without the code around it. -/
def bare (b : Builder) : Builder :=
  { b with captures := [], frame := b.frame.map fun frame => { frame with body := [] } }

theorem perform_emit {b : Builder} (opened : b.frame.isSome = true) (code : Code) :
    perform (emit code) b = (.ok (), b.add code) := by
  obtain ⟨platform, label, captures, frame, finished, strings⟩ := b
  obtain ⟨frame, rfl⟩ := Option.isSome_iff_exists.mp opened
  cases captures <;> rfl

@[simp] theorem isSome_add (b : Builder) (code : Code) :
    (b.add code).frame.isSome = b.frame.isSome := by
  unfold add
  split
  · rfl
  · exact Option.isSome_map

@[simp] theorem isSome_within (b around : Builder) :
    (b.within around).frame.isSome = b.frame.isSome := by
  unfold within
  split <;> exact Option.isSome_map

@[simp] theorem platform_add (b : Builder) (code : Code) : (b.add code).platform = b.platform := by
  unfold add
  split <;> rfl

@[simp] theorem platform_within (b around : Builder) :
    (b.within around).platform = b.platform := by
  unfold within
  split <;> rfl

@[simp] theorem strings_within (b around : Builder) : (b.within around).strings = b.strings := by
  unfold within
  split <;> rfl

@[simp] theorem length_captures_add (b : Builder) (code : Code) :
    (b.add code).captures.length = b.captures.length := by
  unfold add
  split
  · rename_i captured
    simp [captured]
  · rfl

/-- Code reaches the open function when nothing is captured. -/
theorem body_add {b : Builder} (opened : b.frame.isSome = true) (code : Code) :
    (b.add code).body = b.body ++ if b.captures.length = 0 then code else [] := by
  obtain ⟨platform, label, captures, frame, finished, strings⟩ := b
  obtain ⟨frame, rfl⟩ := Option.isSome_iff_exists.mp opened
  cases captures <;> simp [add, body]

theorem addString_of_some {b : Builder} {value : Bytes} {index : Nat}
    (found : b.strings.findIdx? (· = value) = some index) :
    perform (addString value) b = (.ok (stringLabel index), b) := by
  simp only [addString, perform_bind, perform_get, found]
  rfl

theorem addString_of_none {b : Builder} {value : Bytes}
    (absent : b.strings.findIdx? (· = value) = none) :
    perform (addString value) b =
      (.ok (stringLabel b.strings.length), { b with strings := b.strings ++ [value] }) := by
  simp only [addString, perform_bind, perform_get, absent]
  rfl

/-- Code goes to the innermost buffer, whether it belongs to the builder or lies around it. -/
theorem add_within {b : Builder} (opened : b.frame.isSome = true) (around : Builder)
    (code : Code) : (b.add code).within around = (b.within around).add code := by
  obtain ⟨platform, label, captures, frame, finished, strings⟩ := b
  obtain ⟨frame, rfl⟩ := Option.isSome_iff_exists.mp opened
  obtain ⟨_, _, others, _, _, _⟩ := around
  cases captures <;> cases others <;> simp [add, within, body]

end Builder

/-- Whether an action of a builder with an open function succeeds and does the same in whatever buffer
the builder goes on. -/
structure Moves {α : Type} (action : Build α) (b : Builder) (result : α) (after : Builder) :
    Prop where
  opened : after.frame.isSome = true
  platform : after.platform = b.platform
  alone : perform action b = (.ok result, after)
  inside : ∀ around : Builder,
    perform action (b.within around) = (.ok result, after.within around)

namespace Moves

variable {α β : Type} {b : Builder} {code : Code}

theorem pure (opened : b.frame.isSome = true) (a : α) : Moves (Pure.pure a) b a b :=
  ⟨opened, rfl, rfl, fun _ => rfl⟩

theorem bind {action : Build α} {next : α → Build β} {a : α} {result : β} {middle after : Builder}
    (first : Moves action b a middle) (second : Moves (next a) middle result after) :
    Moves (action >>= next) b result after where
  opened := second.opened
  platform := second.platform.trans first.platform
  alone := by rw [perform_bind, first.alone]; exact second.alone
  inside around := by rw [perform_bind, first.inside]; exact second.inside around

section

variable (opened : b.frame.isSome = true)

include opened

theorem emit (code : Code) : Moves (Builder.emit code) b () (b.add code) where
  opened := by rwa [isSome_add]
  platform := platform_add b code
  alone := perform_emit opened code
  inside around := by rw [perform_emit (by rwa [isSome_within]), add_within opened]

theorem emitFor (code : Platform → Code) :
    Moves (Builder.emitFor code) b () (b.add (code b.platform)) := by
  have platform (c : Builder) : perform (Builder.emitFor code) c =
      perform (Builder.emit (code c.platform)) c := rfl
  have emitted := emit opened (code b.platform)
  refine ⟨emitted.opened, emitted.platform, emitted.alone, fun around => ?_⟩
  rw [platform, platform_within]
  exact emitted.inside around

theorem reserve (bytes : Int) : Moves (Builder.reserve bytes) b ()
    { b with frame := b.frame.map fun frame => { frame with size := bytes } } := by
  obtain ⟨platform, label, captures, frame, finished, strings⟩ := b
  obtain ⟨frame, rfl⟩ := Option.isSome_iff_exists.mp opened
  refine ⟨rfl, rfl, rfl, fun around => ?_⟩
  obtain ⟨_, _, others, _, _, _⟩ := around
  cases others <;> rfl

theorem newLabel : Moves Builder.newLabel b ("L" ++ Numeral.decimal b.nextLabel)
    { b with nextLabel := b.nextLabel + 1 } := by
  refine ⟨opened, rfl, rfl, fun around => ?_⟩
  obtain ⟨_, _, others, _, _, _⟩ := around
  cases others <;> rfl

theorem addString (value : Bytes) : ∃ label strings,
    Moves (Builder.addString value) b label { b with strings } := by
  cases found : b.strings.findIdx? (· = value) with
  | some index =>
    refine ⟨stringLabel index, b.strings, opened, rfl, addString_of_some found, fun around => ?_⟩
    exact addString_of_some (by rw [strings_within, found])
  | none =>
    refine ⟨stringLabel b.strings.length, b.strings ++ [value], opened, rfl, addString_of_none found,
      fun around => ?_⟩
    rw [addString_of_none (by rw [strings_within, found]), strings_within]
    obtain ⟨_, _, others, _, _, _⟩ := around
    cases others <;> rfl

theorem beginCapture :
    Moves Builder.beginCapture b () { b with captures := [] :: b.captures } := by
  refine ⟨opened, rfl, rfl, fun around => ?_⟩
  obtain ⟨_, _, others, _, _, _⟩ := around
  cases others <;> rfl

theorem endCapture {inner : Code} {outer : List Code} (captured : b.captures = inner :: outer) :
    Moves Builder.endCapture b inner { b with captures := outer } := by
  obtain ⟨platform, label, captures, frame, finished, strings⟩ := b
  subst captured
  refine ⟨opened, rfl, rfl, fun around => ?_⟩
  obtain ⟨_, _, others, _, _, _⟩ := around
  cases others <;> rfl

end

end Moves

/-- A call that is allowed succeeds and moves with its builder. It reaches the open function only if
no capture is open. -/
theorem Call.moves {call : Call} {b : Builder} {ended : List Code}
    (opened : b.frame.isSome = true)
    (allowed : call.isAllowed b.captures.length ended.length = true) :
    ∃ labels captured after, Moves (call.make ended) b (labels, captured) after ∧
      after.captures.length = call.depth b.captures.length ∧
      (ended ++ captured).length = call.count ended.length ∧
      after.body =
        b.body ++ if b.captures.length = 0 then call.lines b.platform ended else [] := by
  have quiet : b.body = b.body ++ if b.captures.length = 0 then [] else [] := by simp
  cases call with
  | emit code =>
    have emitted := Moves.emitFor opened code
    exact ⟨[], [], _, emitted.bind (.pure emitted.opened _), length_captures_add b _, by simp [count],
      body_add opened _⟩
  | reserve bytes =>
    have reserved := Moves.reserve opened bytes
    refine ⟨[], [], _, reserved.bind (.pure reserved.opened _), rfl, by simp [count], ?_⟩
    refine Eq.trans ?_ quiet
    cases frame : b.frame <;> simp [body, frame]
  | newLabel =>
    have made := Moves.newLabel opened
    exact ⟨_, [], _, made.bind (.pure made.opened _), rfl, by simp [count], quiet⟩
  | addString value =>
    obtain ⟨label, strings, pooled⟩ := Moves.addString opened value
    exact ⟨_, [], _, pooled.bind (.pure pooled.opened _), rfl, by simp [count], quiet⟩
  | beginCapture =>
    have begun := Moves.beginCapture opened
    exact ⟨[], [], _, begun.bind (.pure begun.opened _), rfl, by simp [count], quiet⟩
  | endCapture =>
    obtain ⟨inner, outer, captured⟩ := List.exists_cons_of_length_pos (of_decide_eq_true allowed)
    have stopped := Moves.endCapture opened captured
    refine ⟨[], [inner], _, stopped.bind (.pure stopped.opened _), ?_, by simp [count], quiet⟩
    simp [captured, depth]
  | splice index =>
    have emitted := Moves.emit opened (ended.getD index [])
    exact ⟨[], [], _, emitted.bind (.pure emitted.opened _), length_captures_add b _, by simp [count],
      body_add opened _⟩

/-- The code of captures that have ended stays what it is. -/
theorem Call.lines_append {call : Call} {depth : Nat} {ended : List Code}
    (allowed : call.isAllowed depth ended.length = true) (platform : Platform) (more : List Code) :
    call.lines platform (ended ++ more) = call.lines platform ended := by
  cases call with
  | splice index =>
    have before : index < ended.length := of_decide_eq_true allowed
    simp [lines, List.getElem?_append_left before]
  | _ => rfl

/-- Balanced calls succeed and move with their builder, and the open function gets the code that they
add outside of their captures. -/
theorem makeAll_moves {b : Builder} (ended : List Code) (calls : List Call)
    (opened : b.frame.isSome = true)
    (balanced : isBalanced b.captures.length ended.length calls = true) :
    ∃ labels captured after, Moves (makeAll ended calls) b (labels, ended ++ captured) after ∧
      after.captures = [] ∧
      after.body =
        b.body ++ reaching b.platform (ended ++ captured) b.captures.length calls := by
  induction calls generalizing b ended with
  | nil =>
    have empty : b.captures.length = 0 := of_decide_eq_true balanced
    refine ⟨[], [], b, ?_, List.length_eq_zero_iff.mp empty, (List.append_nil _).symm⟩
    rw [List.append_nil]
    exact .pure opened _
  | cons call rest ih =>
    obtain ⟨allowed, later⟩ := Bool.and_eq_true_iff.mp balanced
    obtain ⟨labels, captured, middle, first, depth, count, body⟩ := call.moves opened allowed
    rw [← depth, ← count] at later
    obtain ⟨others, more, after, second, closed, bodies⟩ := ih _ first.opened later
    refine ⟨labels ++ others, captured ++ more, after, ?_, closed, ?_⟩
    · rw [← List.append_assoc]
      exact first.bind (second.bind (.pure second.opened _))
    · rw [bodies, body, depth, first.platform, reaching, call.lines_append allowed,
        List.append_assoc ended, List.append_assoc b.body]

namespace Builder

theorem bare_within (b : Builder) : b.bare.within b = b := by
  obtain ⟨platform, label, captures, frame, finished, strings⟩ := b
  cases captures <;> cases frame <;> simp [bare, within, body]

theorem body_bare (b : Builder) : b.bare.body = [] := by
  cases frame : b.frame <;> simp [bare, body, frame]

/-- A builder that starts to capture code. -/
def capturing (b : Builder) : Builder := { b with captures := [] :: b.captures }

theorem bare_within_capturing (b : Builder) : b.bare.within b.capturing = b.capturing := by
  obtain ⟨platform, label, captures, frame, finished, strings⟩ := b
  cases frame <;> simp [bare, within, capturing, body]

variable {b : Builder} (opened : b.frame.isSome = true) (closed : b.captures = [])

include opened closed

/-- A capture that is put in place when it ends leaves what there would be without it. -/
theorem splice_within (around : Builder) :
    perform (do
      let code ← endCapture
      emit code) (b.within around.capturing) = (.ok (), b.within around) := by
  obtain ⟨platform, label, captures, frame, finished, strings⟩ := b
  obtain ⟨frame, rfl⟩ := Option.isSome_iff_exists.mp opened
  subst closed
  obtain ⟨_, _, others, _, _, _⟩ := around
  cases others <;> rfl

/-- The innermost buffer gets the body, and the others stay as they are. -/
theorem buffers_within (around : Builder) : ∃ inner outer, around.buffers = inner :: outer ∧
    (b.within around).buffers = (inner ++ b.body) :: outer := by
  obtain ⟨platform, label, captures, frame, finished, strings⟩ := b
  obtain ⟨frame, rfl⟩ := Option.isSome_iff_exists.mp opened
  subst closed
  obtain ⟨_, _, others, _, _, _⟩ := around
  cases others with
  | nil => exact ⟨_, [], rfl, rfl⟩
  | cons inner outer => exact ⟨inner, _, rfl, rfl⟩

end Builder

/-- Capturing code and putting it in place is doing nothing about it. From every builder with an open
function, balanced calls succeed. Made inside of a capture that is put in place as soon as it ends,
they give the same labels and captures and leave the same builder. The innermost buffer gets just the
code that they add while none of their own captures is open, and the other buffers stay as they are. -/
theorem splice_capture_eq (b : Builder) (opened : b.frame.isSome = true) (calls : List Call)
    (balanced : isBalanced 0 0 calls = true) :
    ∃ labels ended after,
      perform (makeAll [] calls) b = (.ok (labels, ended), after) ∧
      perform (do
        beginCapture
        let made ← makeAll [] calls
        let code ← endCapture
        emit code
        return made) b = (.ok (labels, ended), after) ∧
      ∃ inner outer, b.buffers = inner :: outer ∧
        after.buffers = (inner ++ reaching b.platform ended 0 calls) :: outer := by
  have bare : b.bare.frame.isSome = true := by rwa [Builder.bare, Option.isSome_map]
  obtain ⟨labels, ended, after, moves, closed, body⟩ := makeAll_moves [] calls bare balanced
  have code : after.body = reaching b.platform ended 0 calls := by
    rw [body, body_bare]
    rfl
  have alone := moves.inside b
  have captured := moves.inside b.capturing
  rw [Builder.bare_within] at alone
  rw [Builder.bare_within_capturing] at captured
  refine ⟨labels, ended, after.within b, alone, ?_, code ▸ buffers_within moves.opened closed b⟩
  have begun : perform beginCapture b = (.ok (), b.capturing) := rfl
  have spliced := splice_within moves.opened closed b
  rw [perform_bind, begun]
  dsimp only
  rw [perform_bind, captured]
  dsimp only
  rw [← bind_assoc, perform_bind, spliced]
  rfl

/-- Calls with a capture inside of a capture, both of which are added twice. -/
private def nesting : List Call :=
  [.emit fun _ => pushScalar, .beginCapture, .newLabel, .emit printInt, .beginCapture,
    .addString "x", .emit fun _ => negate, .endCapture, .splice 0, .endCapture, .splice 1, .splice 0,
    .reserve 8, .splice 1]

/-- A builder inside of a capture. -/
private def begun : Builder where
  platform := .linux
  nextLabel := 3
  captures := [popAdd]
  frame := some { name := "main", body := pushScalar }

theorem splice_capture_eq_nesting :
    isBalanced 0 0 nesting = true ∧
    perform (do
      beginCapture
      let made ← makeAll [] nesting
      let code ← endCapture
      emit code
      return made) begun = perform (makeAll [] nesting) begun ∧
    (perform (makeAll [] nesting) begun).2.captures = [popAdd ++ pushScalar ++
      (printInt .linux ++ negate) ++ negate ++ (printInt .linux ++ negate)] ∧
    (perform (makeAll [] nesting) begun).2.body = pushScalar := by
  have balanced : isBalanced 0 0 nesting = true := by decide
  obtain ⟨labels, ended, after, alone, captured, _⟩ :=
    splice_capture_eq begun rfl nesting balanced
  exact ⟨balanced, captured.trans alone.symm, by decide +kernel, by decide +kernel⟩

end Onepass.Codegen
