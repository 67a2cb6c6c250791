import Onepass.Proofs.Simulation.Expressions
import Onepass.Proofs.Simulation.Output

/-! The code of every statement does what the statement does. Between statements the stack ends with
the frame, so that code may jump there. A loop is followed for as many rounds as the interpreter was
asked to make: a run that goes on after that has made at least as many steps. -/
namespace Onepass.Simulation

open Assembly (Code)
open Interpreter (Value State Eval Cell)
open Machine
open Syntax (Context Expr Stmt HasType Typed)

/-- What becomes of a machine that executes code for a statement, with code to go on with, when it
had made some steps and loops are followed for a number of rounds. -/
inductive Ran (P : Setting) (steps fuel : Nat) (rest : Code) :
    Except Interpreter.Stop Unit × State → Ledger → Machine → Prop where
  | done {after : State} {later : Ledger} {n : Machine} (matched : Matches P after later [] n)
      (before : Before P rest n) : Ran P steps fuel rest (.ok (), after) later n
  | stopped {reason : Interpreter.Stop} {after : State} {later : Ledger} {n : Machine}
      (fails : Fails P after reason later n) : Ran P steps fuel rest (.error reason, after) later n
  | unfinished {after : State} {later : Ledger} {n : Machine} (late : steps + fuel ≤ n.steps) :
      Ran P steps fuel rest (.error .unfinished, after) later n

/-- Whether code does what an action does. -/
def Runs (P : Setting) (code : Code) (fuel : Nat) (action : Eval Unit) : Prop :=
  ∀ ⦃s : State⦄ ⦃blocks : Ledger⦄ ⦃rest : Code⦄ ⦃m : Machine⦄,
    Matches P s blocks [] m → Before P (code ++ rest) m →
    Leads P.Watch (Ran P m.steps fuel rest (perform action s)) blocks m

/-- What becomes of a machine that tests a condition: it goes on with one code or another. -/
inductive Tested (P : Setting) (yes no : Code) :
    Except Interpreter.Stop Bool × State → Ledger → Machine → Prop where
  | holds {after : State} {later : Ledger} {n : Machine} (matched : Matches P after later [] n)
      (before : Before P yes n) : Tested P yes no (.ok true, after) later n
  | fails {after : State} {later : Ledger} {n : Machine} (matched : Matches P after later [] n)
      (before : Before P no n) : Tested P yes no (.ok false, after) later n
  | stopped {reason : Interpreter.Stop} {after : State} {later : Ledger} {n : Machine}
      (fails : Fails P after reason later n) : Tested P yes no (.error reason, after) later n

section Control

variable {P : Setting} {s : State} {blocks : Ledger} {rest code first second other : Code}
  {goal : Ledger → Machine → Prop} {m n : Machine} {fuel : Nat} {name : Bytes} {shape : Shape}

/-- Between statements the stack ends with the frame. -/
theorem Matches.level (matched : Matches P s blocks [] m) : P.Level m.registers :=
  ⟨matched.base, by simpa using matched.stack.place⟩

theorem Matches.mayJump (matched : Matches P s blocks [] m) : P.MayJump name m.registers :=
  fun _ _ => matched.level

/-- A run that is as late after fewer steps. -/
theorem Ran.mono {outcome : Except Interpreter.Stop Unit × State} {steps earlier less : Nat}
    (ran : Ran P steps fuel rest outcome blocks n) (le : earlier + less ≤ steps + fuel) :
    Ran P earlier less rest outcome blocks n := by
  cases ran with
  | done matched before => exact .done matched before
  | stopped fails => exact .stopped fails
  | unfinished late => exact .unfinished (le_trans le late)

/-- A label behind a statement is passed. -/
theorem Ran.label {outcome : Except Interpreter.Stop Unit × State} {steps : Nat}
    (ran : Ran P steps fuel (Codegen.label name ++ rest) outcome blocks n) :
    Ran P steps fuel rest outcome blocks n := by
  cases ran with
  | done matched before => exact .done matched (before.label matched.level)
  | stopped fails => exact .stopped fails
  | unfinished late => exact .unfinished late

/-- One statement after the other. -/
theorem Runs.andThen {one two : Eval Unit} (head : Runs P first fuel one)
    (tail : Runs P second fuel two) : Runs P (first ++ second) fuel (do one; two) := by
  intro s blocks rest m matched before
  rw [List.append_assoc] at before
  refine (head matched before).counted.trans fun later n ⟨ran, more⟩ => ?_
  rw [perform_bind]
  generalize perform one s = outcome at ran
  cases ran with
  | done matched before =>
    exact (tail matched before).mono fun _ _ ran => ran.mono (by omega)
  | stopped fails => exact .here (.stopped fails)
  | unfinished late => exact .here (.unfinished late)

theorem runs_nil : Runs P [] fuel (pure ()) :=
  fun _ _ _ _ matched before => .here (.done matched before)

/-- A branch is taken unless what the accumulator says holds. -/
theorem leads_jumpIfFalse {truth : Bool} (matched : Matches P s blocks [] m)
    (before : Before P (Codegen.jumpIfFalse name ++ rest) m) (labelled : P.Labelled name other)
    (tells : truth = false ↔ m.registers.get .eax = 0) :
    Leads P.Watch (Tested P rest other (.ok truth, s)) blocks m := by
  refine (At.start matched.ready before).arithmetic rfl rfl rfl rfl (readable_register .eax)
    (readable_register .eax) (writable_register .eax _) fun n there => ?_
  have same : m.registers.get .eax ||| m.registers.get .eax = m.registers.get .eax :=
    UInt32.or_self
  have zero : (Flags.ofLogic (m.registers.get .eax ||| m.registers.get .eax)).holds
      (.signed .equal) = (m.registers.get .eax == 0) := by
    rw [same]
    rfl
  have level := matched.level
  refine there.branch rfl rfl labelled (fun _ _ => ⟨level.base, level.top⟩) (fun holds o there => ?_)
    fun fails o there => ?_
  · obtain rfl : truth = false := tells.mpr (by simpa using zero.symm.trans holds)
    exact .here (.fails (there.keeps matched rfl rfl) there.before)
  · have nonzero : m.registers.get .eax ≠ 0 := by simpa using zero.symm.trans fails
    obtain rfl : truth = true := by simpa using mt tells.mp nonzero
    exact .here (.holds (there.keeps matched rfl rfl) there.before)

/-- A condition is tested, and the code that belongs to the result is next. -/
theorem leads_test {condition : Expr} (scalar : shape.IsScalar)
    (computes : Computes P code shape (Interpreter.eval P.locals condition))
    (matched : Matches P s blocks [] m)
    (before : Before P (code ++ (Codegen.jumpIfFalse name ++ rest)) m)
    (labelled : P.Labelled name other) :
    Leads P.Watch (Tested P rest other (perform (Interpreter.test P.locals condition) s)) blocks
      m := by
  refine computes.andThen matched before .stopped fun v after later n matched before held _ => ?_
  have register : resultRegister shape = .eax := by
    rcases scalar with rfl | rfl <;> rfl
  rw [register] at held
  generalize value : n.registers.get .eax = w at held
  cases held with
  | int number =>
    have zero : number = 0 ↔ number.toUInt32 = 0 :=
      ⟨congrArg Int32.toUInt32, congrArg Int32.ofUInt32⟩
    exact leads_jumpIfFalse matched before labelled (by simpa [value] using zero)
  | char c =>
    have zero : c = 0 ↔ c.toUInt32 = 0 := UInt8.toUInt32_inj.symm
    exact leads_jumpIfFalse matched before labelled (by simpa [value] using zero)
  | noText => simp [Shape.IsScalar] at scalar
  | text _ _ => simp [Shape.IsScalar] at scalar
  | noArray _ => simp [Shape.IsScalar] at scalar
  | array _ _ => simp [Shape.IsScalar] at scalar

/-- Statements under a condition. -/
theorem runs_ifThen {condition : Expr} {action : Eval Unit} (scalar : shape.IsScalar)
    (computes : Computes P code shape (Interpreter.eval P.locals condition))
    (body : Runs P first fuel action) :
    Runs P (code ++ Codegen.jumpIfFalse name ++ first ++ Codegen.label name) fuel (do
      if ← Interpreter.test P.locals condition then action) := by
  intro s blocks rest m matched before
  rw [List.append_assoc] at before
  have labelled : P.Labelled name rest := before.labelled
  simp only [List.append_assoc] at before
  refine (leads_test scalar computes matched before labelled).counted.trans
    fun later n ⟨tested, more⟩ => ?_
  rw [perform_bind]
  generalize perform (Interpreter.test P.locals condition) s = outcome at tested
  cases tested with
  | holds matched before =>
    exact (body matched before).mono fun _ _ ran => ran.label.mono (by omega)
  | fails matched before => exact .here (.done matched before)
  | stopped fails => exact .here (.stopped fails)

/-- Statements for a condition, and others for its opposite. -/
theorem runs_ifElse {condition : Expr} {action alternative : Eval Unit} {finish : Bytes}
    (scalar : shape.IsScalar)
    (computes : Computes P code shape (Interpreter.eval P.locals condition))
    (body : Runs P first fuel action) (other : Runs P second fuel alternative) :
    Runs P (code ++ Codegen.jumpIfFalse name ++ first ++ Codegen.jump finish ++
      Codegen.label name ++ second ++ Codegen.label finish) fuel (do
      if ← Interpreter.test P.locals condition then action else alternative) := by
  intro s blocks rest m matched before
  rw [List.append_assoc] at before
  have finishes : P.Labelled finish rest := before.labelled
  rw [List.append_assoc _ second, List.append_assoc _ (Codegen.label name)] at before
  have branches : P.Labelled name (second ++ (Codegen.label finish ++ rest)) := before.labelled
  simp only [List.append_assoc] at before
  refine (leads_test scalar computes matched before branches).counted.trans
    fun later n ⟨tested, more⟩ => ?_
  rw [perform_bind]
  generalize perform (Interpreter.test P.locals condition) s = outcome at tested
  cases tested with
  | @holds after later _ matched before =>
    refine (body matched before).trans fun final o ran => ?_
    change Ran P n.steps fuel _ (perform action after) final o at ran
    change Leads P.Watch (Ran P m.steps fuel rest (perform action after)) final o
    generalize perform action after = outcome at ran
    cases ran with
    | done matched before =>
      refine (At.start matched.ready before).jump finishes matched.mayJump fun p there _ => ?_
      exact .here (.done (there.keeps matched rfl rfl) there.before)
    | stopped fails => exact .here (.stopped fails)
    | unfinished late => exact .here (.unfinished (by omega))
  | fails matched before =>
    exact (other matched before).mono fun _ _ ran => ran.label.mono (by omega)
  | stopped fails => exact .here (.stopped fails)

/-- A loop is followed for as many rounds as the interpreter makes. -/
theorem leads_rounds {condition : Eval Bool} {action : Eval Unit} {head tail : Code}
    (test : ∀ {s : State} {blocks : Ledger} {m : Machine}, Matches P s blocks [] m →
      Before P head m →
      Leads P.Watch (Tested P (first ++ (Codegen.jump name ++ tail)) rest (perform condition s))
        blocks m)
    (body : Runs P first fuel action) (again : P.Labelled name head) {rounds : Nat}
    (enough : rounds ≤ fuel) (matched : Matches P s blocks [] m) (before : Before P head m) :
    Leads P.Watch (Ran P m.steps rounds rest
      (perform (Interpreter.repeatWhile condition action rounds) s)) blocks m := by
  induction rounds generalizing s blocks m with
  | zero => exact .here (.unfinished (le_refl _))
  | succ rounds ih =>
    rw [Interpreter.repeatWhile, perform_bind]
    refine (test matched before).counted.trans fun later n ⟨tested, more⟩ => ?_
    generalize perform condition s = outcome at tested
    cases tested with
    | @holds after later _ matched before =>
      refine (body matched before).counted.trans fun final o ⟨ran, longer⟩ => ?_
      change Leads P.Watch (Ran P m.steps (rounds + 1) rest
        (perform (do action; Interpreter.repeatWhile condition action rounds) after)) final o
      rw [perform_bind]
      generalize perform action after = outcome at ran
      cases ran with
      | done matched before =>
        refine (At.start matched.ready before).jump again matched.mayJump fun p there later => ?_
        refine (ih (by omega) (there.keeps matched rfl rfl) there.before).mono fun _ _ ran => ?_
        exact ran.mono (by omega)
      | stopped fails => exact .here (.stopped fails)
      | unfinished late => exact .here (.unfinished (by omega))
    | fails matched before => exact .here (.done matched before)
    | stopped fails => exact .here (.stopped fails)

/-- A loop. -/
theorem runs_loop {condition : Expr} {action : Eval Unit} {exit : Bytes} (scalar : shape.IsScalar)
    (computes : Computes P code shape (Interpreter.eval P.locals condition))
    (body : Runs P first fuel action) :
    Runs P (Codegen.label name ++ code ++ Codegen.jumpIfFalse exit ++ first ++ Codegen.jump name ++
      Codegen.label exit) fuel
      (Interpreter.repeatWhile (Interpreter.test P.locals condition) action fuel) := by
  intro s blocks rest m matched before
  rw [List.append_assoc] at before
  have leaves : P.Labelled exit rest := before.labelled
  simp only [List.append_assoc] at before
  have again := (show Before P ([] ++ (Codegen.label name ++ _)) m from before).labelled
  exact leads_rounds (fun matched before => leads_test scalar computes matched before leaves) body
    again (le_refl _) matched (before.label matched.level)

end Control

section Effects

variable {P : Setting} {s : State} {blocks : Ledger} {code first second third : Code} {fuel i : Nat}
  {name : Bytes} {shape element : Shape} {memory : Memory} {mark w : Word} {v : Value}

/-- Different slots do not overlap. -/
theorem readWord_slot {j : Nat} (fits : P.Fits) (here : i < P.locals.length)
    (there : j < P.locals.length) (w : Word) :
    (memory.writeWord (slotAddress i) w).readWord (slotAddress j) =
      if i = j then w else memory.readWord (slotAddress j) := by
  have first := toNat_slotAddress i
  have second := toNat_slotAddress j
  simp only [Setting.Fits, memorySize, heapLimit, stackSize] at fits first second
  split
  · rename_i same
    rw [← same]
    exact Memory.readWord_writeWord w (by omega)
  · have outside : Memory.Same (slotAddress j).toNat ((slotAddress j).toNat + 4) memory
        (memory.writeWord (slotAddress i) w) := Memory.same_writeWord w (by omega) (by omega)
    exact outside.readWord (le_refl _) (le_refl _) (by omega)

/-- A variable is assigned by writing its slot. -/
theorem Stored.assign (valid : P.Valid) (stored : Stored P s blocks memory mark) (fits : P.Fits)
    (known : P.locals[i]? = some (name, shape)) (held : Represents P s.heap blocks shape v w) :
    Stored P { s with binding := Function.update s.binding name v } blocks
      (memory.writeWord (slotAddress i) w) mark := by
  have bound := (List.getElem?_eq_some_iff.mp known).1
  have place := toNat_slotAddress i
  have room := fits
  simp only [Setting.Fits, memorySize] at room place
  have high : Memory.Same (memorySize - 8) memorySize memory
      (memory.writeWord (slotAddress i) w) :=
    Memory.same_writeWord w (by omega) (.inl (by simp only [memorySize]; omega))
  refine stored.frame (Memory.same_writeWord w (by omega) (.inr (by omega)))
    (fun {j other kind} found => ?_) ?_ ?_
  · have limit := (List.getElem?_eq_some_iff.mp found).1
    rw [readWord_slot fits bound limit]
    by_cases same : i = j
    · subst same
      obtain ⟨rfl, rfl⟩ := Prod.mk.inj (Option.some.inj (known.symm.trans found))
      rw [if_pos rfl, Function.update_self]
      exact held
    · have differ : other ≠ name := by
        rintro rfl
        have bound : i < (P.locals.map Prod.fst).length := by simpa using bound
        apply same
        rw [← List.getElem?_inj bound valid.names]
        simp [known, found]
      rw [if_neg same, Function.update_of_ne differ]
      exact stored.slot found
  · rw [high.readWord (le_refl _) (by decide) (by decide)]
    exact stored.caller
  · rw [high.readWord (by decide) (by decide) (by decide)]
    exact stored.back

/-- A variable gets the value of an expression. -/
theorem runs_assign {action : Eval Value} (valid : P.Valid)
    (known : P.locals[i]? = some (name, shape)) (computes : Computes P code shape action) :
    Runs P (code ++ Codegen.store (.ofShape shape) i) fuel (do
      let v ← action
      modify fun s => { s with binding := Function.update s.binding name v }) := by
  intro s blocks rest m matched before
  rw [List.append_assoc, store_eq] at before
  refine computes.andThen matched before .stopped fun v after later n matched before held _ => ?_
  have bound := (List.getElem?_eq_some_iff.mp known).1
  obtain ⟨low, place, whole⟩ := matched.top
  have slot := toNat_slotAddress i
  have stack : Stacked P [] (n.memory.writeWord (slotAddress i)
      (n.registers.get (resultRegister shape))) n.registers.esp :=
    matched.stack.same (Memory.same_writeWord _ (by simp only [memorySize] at *; omega)
      (.inr (by omega)))
  exact (At.start matched.ready before).movl (operand_result shape) rfl (readable_register _)
    (writable_stack low (matched.slot_place bound) (by omega) (by omega) matched.ready.tidy _)
    fun o there => .here (.done (there.matches matched rfl stack
      (matched.stored.assign valid matched.fits known held) rfl) there.before)

/-- A value is printed. -/
theorem runs_print {action : Eval Value} (valid : P.Valid)
    (printable : shape.IsScalar ∨ shape = .string) (computes : Computes P code shape action) :
    Runs P (code ++ (Codegen.print? P.platform (.ofShape shape)).getD []) fuel (do
      let v ← action
      let text ← Interpreter.shown v
      modify fun s => { s with output := s.output ++ text ++ "\n" }) := by
  intro s blocks rest m matched before
  rw [List.append_assoc] at before
  refine computes.andThen matched before .stopped fun v after later n matched before held _ => ?_
  refine leads_show valid matched before printable held (fun null o fails => ?_)
    fun text shows o matched before => ?_
  · rw [null]
    exact .here (.stopped fails)
  · rw [shows, pure_bind]
    exact .here (.done matched before)

/-- An element of an array gets the value of an expression. -/
theorem runs_store {left right action : Eval Value} (valid : P.Valid)
    (container : Computes P first (.array element) left) (selector : Computes P second .int right)
    (computes : Computes P third element action) :
    Runs P (Generator.selection first second element ++ Codegen.pushPointer ++ third ++
      Codegen.popBase "edx" ++ Codegen.storeAt (.ofShape element) "edx" wordSize) fuel (do
        let c ← left
        let i ← right
        let place ← Interpreter.locate c i
        let v ← action
        Interpreter.put place.1 place.2 v) := by
  intro s blocks rest m matched before
  simp only [Generator.selection, List.append_assoc] at before
  refine leads_operands container selector rfl matched before .stopped
    fun c i after later n matched before held index _ => ?_
  generalize pointer : n.registers.get .esi = w at held
  cases held with
  | noArray _ => exact .here (.stopped (fails_null matched before pointer))
  | @array r cell block here there =>
    have has := hasLength_array valid matched.stored here there
    rw [perform_bind, perform_locate here]
    refine leads_check valid matched before pointer index has (fun outside o fails => ?_)
      fun inside o matched before same _ => ?_
    · rw [if_neg outside]
      exact .here (.stopped fails)
    rw [if_pos inside, toNat_position inside.1]
    have esi : o.registers.get .esi = block.address := by rw [same, pointer]
    have eax : o.registers.get .eax = i.toUInt32 := by rw [same, index]
    refine leads_point cell.element matched before esi eax fun p matched before moved _ => ?_
    refine leads_push matched before rfl (readable_register .esi) rfl fun q matched before => ?_
    refine computes.andThen matched before .stopped
      fun v final last t matched before held grows => ?_
    refine leads_pop matched before rfl (by decide) fun u matched before popped => ?_
    obtain ⟨grown, here, kind, size⟩ := grows.cell here
    obtain ⟨_, there, address⟩ := grows.block there
    have bound : i.toUInt32.toNat < grown.values.length := by
      rw [size]
      exact (position_iff has.small).mp inside
    rw [← kind] at before held
    refine leads_storeAt valid matched before here there bound ?_ ?_ fun x matched before =>
      .here (.done matched before)
    · rw [popped, Registers.get_set, if_pos rfl, moved, ← address, ← kind]
      exact elementAddress_eq ..
    · rw [popped, Registers.get_set, if_neg (resultRegister_ne_edx _).symm, Registers.get_set,
        if_neg (resultRegister_ne _).1.symm]
      exact held

end Effects

section Statements

variable {P : Setting} {g : Generator} {name : Bytes} {shape : Shape} {fuel : Nat}

/-- What was given out before a statement. -/
theorem Agrees.beforeStatement (st : Stmt) {after : Context} (laid : g.LaidOut)
    (agrees : Agrees P (g.statement P.platform st).2) (typed : Typed g.context st after) :
    Agrees P g where
  laid := laid
  locals := by
    have all := agrees.locals
    rw [Generator.statement_context typed P.platform g rfl] at all
    obtain ⟨more, rfl⟩ := typed.extends
    exact (List.prefix_append ..).trans all
  strings := (Generator.strings_statement st g).trans agrees.strings

/-- What an expression gives out, when its strings are known. -/
theorem Agrees.afterExpression {e : Expr} (agrees : Agrees P g)
    (strings : (g.expression P.platform e).2.strings <+: P.strings) :
    Agrees P (g.expression P.platform e).2 where
  laid := Generator.laidOut_expression.mpr agrees.laid
  locals := by
    rw [Generator.expression_context]
    exact agrees.locals
  strings := strings

/-- The slot that an assignment stores to. -/
theorem Agrees.assigned (agrees : Agrees P (g.assignment name shape).2)
    (known : (g.assignment name shape).2.context.lookup name = some shape) :
    ∃ i : Nat, (g.assignment name shape).1 = Codegen.store (.ofShape shape) i ∧
      P.locals[i]? = some (name, shape) := by
  obtain ⟨i, found, there⟩ := agrees.slot known
  refine ⟨i, ?_, there⟩
  have same : (g.scope.add name (.ofShape shape)).2.find? name =
      some (g.scope.add name (.ofShape shape)).1 := by
    unfold Scope.add
    split
    · assumption
    · rename_i missing
      simp only [Scope.find?] at missing ⊢
      simp [List.find?_append, missing]
  have slot := Option.some.inj (same.symm.trans found)
  rw [Generator.assignment, Variable.store, slot]

mutual

/-- The code of a statement does what the statement does. -/
theorem runs_statement (valid : P.Valid) (st : Stmt) {g : Generator} {after : Context}
    (laid : g.LaidOut) (agrees : Agrees P (g.statement P.platform st).2) (narrow : st.IsNarrow)
    (typed : Typed g.context st after) :
    Runs P (g.statement P.platform st).1 fuel (Interpreter.exec P.locals fuel st) := by
  have start := Agrees.beforeStatement st laid agrees typed
  have context := Generator.statement_context typed P.platform g rfl
  match st with
  | .declare name value =>
    cases typed with | @declare _ _ _ shape fresh typed =>
    have computes := computes_expression valid value (start.afterExpression agrees.strings) narrow
      typed
    rw [Generator.statement, Generator.shapeOf_eq typed] at agrees context ⊢
    obtain ⟨i, code, known⟩ := Agrees.assigned agrees (by
      rw [context, List.lookup_append, fresh]
      simp)
    rw [Interpreter.exec, code]
    exact runs_assign valid known computes
  | .assign name value =>
    cases typed with | @assign _ _ _ shape fixed typed =>
    have computes := computes_expression valid value (start.afterExpression agrees.strings) narrow
      typed
    rw [Generator.statement, Generator.shapeOf_eq typed] at agrees context ⊢
    obtain ⟨i, code, known⟩ := Agrees.assigned agrees (by rw [context, fixed])
    rw [Interpreter.exec, code]
    exact runs_assign valid known computes
  | .store container selector value =>
    cases typed with | store array number typed =>
    have found : g.elementOf container = _ := Generator.elementOf_eq array rfl
    rw [← Generator.expression_context P.platform container g] at number typed
    rw [← Generator.expression_context P.platform selector] at typed
    rw [Generator.statement] at agrees
    rw [Interpreter.exec, Generator.statement, found]
    have last := Agrees.before (e := value) agrees
    exact runs_store valid
      (computes_expression valid container (Agrees.before (e := selector) last) narrow.1 array)
      (computes_expression valid selector last narrow.2.1 number)
      (computes_expression valid value agrees narrow.2.2 typed)
  | .print value =>
    cases typed with | print printable typed =>
    rw [Interpreter.exec, Generator.statement, Generator.shapeOf_eq typed]
    exact runs_print valid printable (computes_expression valid value agrees narrow typed)
  | .ifThen condition body =>
    cases typed with | ifThen scalar typed inner =>
    have test := start.afterExpression (e := condition)
      ((Generator.strings_statement body (Generator.newLabel _).2).trans agrees.strings)
    have middle : (g.expression P.platform condition).2.newLabel.2.context = g.context :=
      Generator.expression_context ..
    rw [Interpreter.exec, Generator.statement]
    exact runs_ifThen scalar (computes_expression valid condition test narrow.1 typed)
      (runs_statement valid body test.laid agrees narrow.2 (middle ▸ inner))
  | .ifElse condition body other =>
    cases typed with | @ifElse _ branch _ _ _ _ _ scalar typed first second =>
    have whole := (Generator.strings_statement other (Generator.newLabel _).2).trans agrees.strings
    have test := start.afterExpression (e := condition)
      ((Generator.strings_statement body (Generator.newLabel _).2).trans whole)
    have middle : (g.expression P.platform condition).2.newLabel.2.context = g.context :=
      Generator.expression_context ..
    rw [← middle] at first
    have onward := Generator.statement_context first P.platform _ rfl
    have later : Generator.LaidOut (Generator.statement P.platform body
        (g.expression P.platform condition).2.newLabel.2).2.newLabel.2 :=
      Generator.LaidOut.statement (g := (g.expression P.platform condition).2.newLabel.2)
        test.laid P.platform body
    rw [← onward] at second
    have last : Agrees P (Generator.statement P.platform body
        (g.expression P.platform condition).2.newLabel.2).2.newLabel.2 :=
      Agrees.beforeStatement other later agrees second
    rw [Interpreter.exec, Generator.statement]
    exact runs_ifElse scalar (computes_expression valid condition test narrow.1 typed)
      (runs_statement valid body test.laid ⟨last.laid, last.locals, last.strings⟩ narrow.2.1 first)
      (runs_statement valid other later agrees narrow.2.2 second)
  | .loop condition body =>
    cases typed with | loop scalar typed inner =>
    have test := Agrees.afterExpression (g := g.newLabel.2.newLabel.2) (e := condition)
      ⟨start.laid, start.locals, start.strings⟩
      ((Generator.strings_statement body _).trans agrees.strings)
    have middle : (g.newLabel.2.newLabel.2.expression P.platform condition).2.context = g.context :=
      Generator.expression_context ..
    rw [← middle] at inner
    rw [Interpreter.exec, Generator.statement]
    exact runs_loop scalar (computes_expression valid condition test narrow.1 typed)
      (runs_statement valid body test.laid agrees narrow.2 inner)
  | .block body =>
    exact runs_statements valid body laid agrees narrow typed

theorem runs_statements (valid : P.Valid) (body : List Stmt) {g : Generator} {after : Context}
    (laid : g.LaidOut) (agrees : Agrees P (g.statements P.platform body).2)
    (narrow : Stmt.AllNarrow body) (typed : Typed g.context (.block body) after) :
    Runs P (g.statements P.platform body).1 fuel (Interpreter.execAll P.locals fuel body) := by
  match body with
  | [] => exact runs_nil
  | first :: rest =>
    cases typed with | next head tail =>
    have middle := Generator.statement_context head P.platform g rfl
    have later := Generator.LaidOut.statement laid P.platform first
    rw [← middle] at tail
    rw [Interpreter.execAll]
    exact (runs_statement valid first laid
      (Agrees.beforeStatement (.block rest) later agrees tail) narrow.1 head).andThen
      (runs_statements valid rest later agrees narrow.2 tail)

end

end Statements

end Onepass.Simulation
