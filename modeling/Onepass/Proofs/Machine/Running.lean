import Onepass.Proofs.Machine.Robust
import Onepass.Proofs.Machine.Steps

/-! Running, stepping and tracing. They drive the machine by the same steps, and differ in when they
stop: a run also stops when it has made as many steps as its bound allows. A run that ends before has
the same end under every larger bound and in a trace; one that is cut off has only made steps. -/
namespace Onepass.Machine

/-- Whether a run made too many steps. -/
def Ending.CutOff (e : Ending) : Prop := ∃ count, e.stop.map Stop.fault = some (.stepLimit count)

/-- The loop of a run, which does not count its rounds: it goes on until the machine has halted, has
executed `limit` instructions, or stops at a fault. -/
inductive Loops (limit : Int) : Machine → Ending → Machine → Prop
  | halted {m : Machine} (halted : m.halted = true) : Loops limit m ⟨m.status, none⟩ m
  | cutOff {m : Machine} (running : m.halted = false) (reached : limit ≤ m.steps) :
    Loops limit m ⟨0, some ⟨.stepLimit m.steps, none⟩⟩ m
  | fault {m next : Machine} {stop : Stop} (running : m.halted = false) (below : m.steps < limit)
      (stepped : m.step = (.error stop, next)) : Loops limit m ⟨next.status, some stop⟩ next
  | step {m next last : Machine} {e : Ending} (running : m.halted = false)
      (below : m.steps < limit) (stepped : m.step = (.ok (), next))
      (rest : Loops limit next e last) : Loops limit m e last

/-- A whole run: the start of an entry, and the loop if it succeeds. -/
inductive Runs (m : Machine) (entry : Bytes) : Ending → Machine → Prop
  | missing {stop : Stop} {next : Machine} (failed : m.start entry = (.error stop, next)) :
    Runs m entry ⟨0, some stop⟩ next
  | started {next last : Machine} {e : Ending} (started : m.start entry = (.ok (), next))
      (loops : Loops next.stepBound next e last) : Runs m entry e last

section

variable {m next : Machine} {fuel : Nat}

theorem runWithin_halted (halted : m.halted = true) (fuel : Nat) :
    runWithin fuel m = (⟨m.status, none⟩, m) := by
  cases fuel <;> simp [runWithin, halted]

theorem runWithin_zero (running : m.halted = false) :
    runWithin 0 m = (⟨0, some ⟨.stepLimit m.steps, none⟩⟩, m) := by
  simp [runWithin, running]

theorem runWithin_step (running : m.halted = false) (stepped : m.step = (.ok (), next)) :
    runWithin (fuel + 1) m = runWithin fuel next := by
  simp [runWithin, running, stepped]

theorem runWithin_fault {stop : Stop} (running : m.halted = false)
    (stepped : m.step = (.error stop, next)) :
    runWithin (fuel + 1) m = (⟨next.status, some stop⟩, next) := by
  simp [runWithin, running, stepped]

/-- Induction over the rounds of a run. -/
@[elab_as_elim]
theorem runWithin_induction {motive : Nat → Machine → Prop}
    (halted : ∀ fuel m, m.halted = true → motive fuel m)
    (zero : ∀ m, m.halted = false → motive 0 m)
    (fault : ∀ fuel m stop next, m.halted = false → m.step = (.error stop, next) →
      motive (fuel + 1) m)
    (step : ∀ fuel m next, m.halted = false → m.step = (.ok (), next) → motive fuel next →
      motive (fuel + 1) m) (fuel : Nat) (m : Machine) : motive fuel m := by
  induction fuel generalizing m with
  | zero =>
    cases running : m.halted with
    | true => exact halted 0 m running
    | false => exact zero m running
  | succ fuel ih =>
    cases running : m.halted with
    | true => exact halted _ m running
    | false =>
      cases stepped : m.step with
      | mk result next =>
        cases result with
        | error stop => exact fault fuel m stop next running stepped
        | ok _ => exact step fuel m next running stepped (ih next)

end

section Steps

variable {m : Machine}

theorem steps_step_le (m : Machine) : m.step.2.steps ≤ m.steps + 1 := by
  cases running : m.halted with
  | true =>
    rw [step_halted running]
    exact Nat.le_succ _
  | false =>
    cases fetched : m.fetch? with
    | none =>
      rw [step_left running fetched]
      exact Nat.le_succ _
    | some i => exact (steps_of_fetched running fetched).le

theorem steps_le_runWithin (fuel : Nat) (m : Machine) : m.steps ≤ (runWithin fuel m).2.steps := by
  induction fuel, m using runWithin_induction with
  | halted fuel m halted => rw [runWithin_halted halted]
  | zero m running => rw [runWithin_zero running]
  | fault fuel m stop next running stepped =>
    have more := steps_le_step m
    rw [stepped] at more
    rwa [runWithin_fault running stepped]
  | step fuel m next running stepped ih =>
    have one := steps_step running stepped
    rw [runWithin_step running stepped]
    omega

theorem steps_runWithin_le (fuel : Nat) (m : Machine) :
    (runWithin fuel m).2.steps ≤ m.steps + fuel := by
  induction fuel, m using runWithin_induction with
  | halted fuel m halted =>
    rw [runWithin_halted halted]
    exact Nat.le_add_right _ _
  | zero m running => rw [runWithin_zero running]; exact Nat.le_refl _
  | fault fuel m stop next running stepped =>
    have most := steps_step_le m
    rw [stepped] at most
    rw [runWithin_fault running stepped]
    exact le_trans most (by omega)
  | step fuel m next running stepped ih =>
    have one := steps_step running stepped
    rw [runWithin_step running stepped]
    omega

/-- A run that is not cut off ends alike with more fuel. -/
theorem runWithin_of_le {fuel more : Nat} (enough : fuel ≤ more)
    (ends : ¬ (runWithin fuel m).1.CutOff) : runWithin more m = runWithin fuel m := by
  induction fuel, m using runWithin_induction generalizing more with
  | halted fuel m halted => rw [runWithin_halted halted, runWithin_halted halted]
  | zero m running =>
    rw [runWithin_zero running] at ends
    exact absurd ⟨_, rfl⟩ ends
  | fault fuel m stop next running stepped =>
    obtain ⟨extra, rfl⟩ := Nat.exists_eq_add_of_le' enough
    rw [← Nat.add_assoc, runWithin_fault running stepped, runWithin_fault running stepped]
  | step fuel m next running stepped ih =>
    obtain ⟨extra, rfl⟩ := Nat.exists_eq_add_of_le' enough
    rw [runWithin_step running stepped] at ends
    rw [← Nat.add_assoc, runWithin_step running stepped, runWithin_step running stepped]
    exact ih (Nat.le_add_left _ _) ends

end Steps

section CutOff

variable {m : Machine}

theorem after_succ (m : Machine) (n : Nat) : m.after (n + 1) = m.step.2.after n := by
  induction n with
  | zero => rfl
  | succ n ih => exact congrArg (fun later : Machine => later.step.2) ih

/-- The end of a run that is cut off `count` steps after `m`. -/
structure Exhausts (m : Machine) (count : Nat) (e : Ending) (last : Machine) : Prop where
  ending : e = ⟨0, some ⟨.stepLimit last.steps, none⟩⟩
  reached : last = m.after count
  steps : last.steps = m.steps + count
  succeeds : ∀ n < count, (m.after n).halted = false ∧ (m.after n).step = (.ok (), m.after (n + 1))

/-- A run that is cut off has made all its steps, and they have succeeded. -/
theorem exhausts_of_cutOff {fuel : Nat} (formed : ∀ i ∈ m.text, i.IsFormed)
    (cut : (runWithin fuel m).1.CutOff) :
    Exhausts m fuel (runWithin fuel m).1 (runWithin fuel m).2 := by
  induction fuel, m using runWithin_induction with
  | halted fuel m halted =>
    rw [runWithin_halted halted] at cut
    obtain ⟨_, ⟨⟩⟩ := cut
  | zero m running =>
    rw [runWithin_zero running]
    exact ⟨rfl, rfl, rfl, fun n below => absurd below n.not_lt_zero⟩
  | fault fuel m stop next running stepped =>
    rw [runWithin_fault running stepped] at cut
    obtain ⟨count, same⟩ := cut
    -- a step does not fail by the bound, which only the loop looks at
    have ordinary := fault_of_step formed (congrArg Prod.fst stepped)
    rw [Option.some.inj same] at ordinary
    simp [Fault.isOrdinary] at ordinary
  | step fuel m next running stepped ih =>
    have reached : m.step.2 = next := congrArg Prod.snd stepped
    have kept : next.text = m.text := reached ▸ (step_keeps m).1
    have one := steps_step running stepped
    rw [runWithin_step running stepped] at cut ⊢
    obtain ⟨ending, last, steps, succeeds⟩ := ih (kept ▸ formed) cut
    refine ⟨ending, ?_, by omega, fun n below => ?_⟩
    · rw [after_succ, reached, last]
    · cases n with
      | zero => exact ⟨running, stepped.trans (by rw [after_succ, reached]; rfl)⟩
      | succ n =>
        rw [after_succ, after_succ, reached]
        exact succeeds n (Nat.lt_of_succ_lt_succ below)

end CutOff

section Trace

variable {m : Machine}

/-- A trace that may go on for long enough ends as a run does that is not cut off. -/
theorem traceWithin_eq_runWithin {fuel rounds : Nat} (clear : m.halted = false → m.status = 0)
    (ends : ¬ (runWithin fuel m).1.CutOff)
    (enough : (runWithin fuel m).2.steps < m.steps + rounds) (log : List Bytes) :
    (traceWithin rounds log m).2 = (some (runWithin fuel m).1, (runWithin fuel m).2) := by
  have low := steps_le_runWithin fuel m
  obtain ⟨rounds, rfl⟩ : ∃ less, rounds = less + 1 := ⟨rounds - 1, by omega⟩
  induction fuel, m using runWithin_induction generalizing rounds log with
  | halted fuel m halted =>
    rw [runWithin_halted halted]
    simp [traceWithin, halted]
  | zero m running =>
    rw [runWithin_zero running] at ends
    exact absurd ⟨_, rfl⟩ ends
  | fault fuel m stop next running stepped =>
    rw [runWithin_fault running stepped]
    cases fetched : m.fetch? with
    | some i => simp [traceWithin, running, fetched, stepped]
    | none =>
      obtain ⟨⟨⟩, rfl⟩ := Prod.mk.inj ((step_left running fetched).symm.trans stepped)
      simp [traceWithin, running, fetched, stepped, clear running]
  | step fuel m next running stepped ih =>
    have one := steps_step running stepped
    have later := steps_le_runWithin fuel next
    rw [runWithin_step running stepped] at ends enough ⊢
    cases fetched : m.fetch? with
    | none => cases (step_left running fetched).symm.trans stepped
    | some i =>
      obtain ⟨less, rfl⟩ : ∃ less, rounds = less + 1 := ⟨rounds - 1, by omega⟩
      have rest := ih ((status_step running (clear running)).1 next stepped) ends
        (m.traceLine i :: log) later less (by omega)
      rw [← rest, traceWithin]
      simp [running, fetched, stepped]

end Trace

section Bound

/-- The same machine with another bound on the steps of a run. -/
def withBound (m : Machine) (maxSteps : Int) : Machine := { m with maxSteps }

/-- The bound has no part in a step. -/
theorem step_withBound (m : Machine) (maxSteps : Int) :
    (m.withBound maxSteps).step = (m.step.1, m.step.2.withBound maxSteps) := by
  cases running : m.halted with
  | true =>
    rw [step_halted running]
    exact step_halted (m := m.withBound maxSteps) running
  | false =>
    cases fetched : m.fetch? with
    | none =>
      rw [step_left running fetched]
      exact step_left (m := m.withBound maxSteps) running fetched
    | some i =>
      have executed : perform (execute i) (m.withBound maxSteps).next = _ :=
        (orderly_execute i).unbound m.next maxSteps
      rw [step_eq_reported (m := m.withBound maxSteps) running fetched, executed,
        step_eq_reported running fetched]
      rfl

theorem start_withBound (m : Machine) (maxSteps : Int) (entry : Bytes) :
    (m.withBound maxSteps).start entry =
      ((m.start entry).1, (m.start entry).2.withBound maxSteps) := by
  have quiet : Quiet True (Exec.push returnSentinel) := .push _
  have pushed : (Exec.push returnSentinel).run (m.withBound maxSteps) = _ :=
    quiet.unbound m maxSteps
  have opened : (Exec.push returnSentinel).run m = perform (Exec.push returnSentinel) m := rfl
  have same : (m.withBound maxSteps).label? entry = m.label? entry := rfl
  unfold start
  rw [same, pushed, opened]
  cases m.label? entry with
  | none => rfl
  | some index =>
    generalize perform (Exec.push returnSentinel) m = result
    rcases result with ⟨_ | _, _⟩ <;> rfl

theorem stepBound_start (m : Machine) (entry : Bytes) :
    (m.start entry).2.stepBound = m.stepBound :=
  congrArg (fun result => result.2.stepBound) (start_withBound m m.maxSteps entry)

theorem runWithin_withBound (fuel : Nat) (m : Machine) (maxSteps : Int) :
    runWithin fuel (m.withBound maxSteps) =
      ((runWithin fuel m).1, (runWithin fuel m).2.withBound maxSteps) := by
  induction fuel, m using runWithin_induction with
  | halted fuel m halted =>
    rw [runWithin_halted halted]
    exact runWithin_halted (m := m.withBound maxSteps) halted fuel
  | zero m running =>
    rw [runWithin_zero running]
    exact runWithin_zero (m := m.withBound maxSteps) running
  | fault fuel m stop next running stepped =>
    have other := step_withBound m maxSteps
    rw [stepped] at other
    rw [runWithin_fault running stepped]
    exact runWithin_fault (m := m.withBound maxSteps) running other
  | step fuel m next running stepped ih =>
    have other := step_withBound m maxSteps
    rw [stepped] at other
    rw [runWithin_step running stepped, ← ih]
    exact runWithin_step (m := m.withBound maxSteps) running other

end Bound

section Loop

variable {m last : Machine} {e : Ending} {limit : Int}

theorem loops_runWithin (limit : Int) (fuel : Nat) (m : Machine)
    (left : (limit - m.steps).toNat = fuel) :
    Loops limit m (runWithin fuel m).1 (runWithin fuel m).2 := by
  induction fuel, m using runWithin_induction with
  | halted fuel m halted =>
    rw [runWithin_halted halted]
    exact .halted halted
  | zero m running =>
    rw [runWithin_zero running]
    exact .cutOff running (by omega)
  | fault fuel m stop next running stepped =>
    rw [runWithin_fault running stepped]
    exact .fault running (by omega) stepped
  | step fuel m next running stepped ih =>
    have one := steps_step running stepped
    rw [runWithin_step running stepped]
    exact .step running (by omega) stepped (ih (by omega))

theorem runWithin_of_loops (loops : Loops limit m e last) :
    runWithin (limit - m.steps).toNat m = (e, last) := by
  induction loops with
  | halted halted => exact runWithin_halted halted _
  | cutOff running reached =>
    rw [show (limit - _).toNat = 0 by omega]
    exact runWithin_zero running
  | @fault m next stop running below stepped =>
    rw [show (limit - m.steps).toNat = (limit - m.steps - 1).toNat + 1 by omega]
    exact runWithin_fault running stepped
  | @step m next last e running below stepped rest ih =>
    have one := steps_step running stepped
    rw [show (limit - m.steps).toNat = (limit - next.steps).toNat + 1 by omega,
      runWithin_step running stepped, ih]

/-- Every run ends, and it ends in one way. -/
theorem runs_iff {entry : Bytes} : Runs m entry e last ↔ m.run entry = (e, last) := by
  unfold run
  constructor
  · rintro (⟨failed⟩ | ⟨started, loops⟩)
    · rw [failed]
    · rw [started]
      exact runWithin_of_loops loops
  · intro ended
    cases started : m.start entry with
    | mk result next =>
      rw [started] at ended
      cases result with
      | error stop =>
        cases ended
        exact .missing started
      | ok _ =>
        have loops := loops_runWithin next.stepBound _ next rfl
        dsimp only at ended
        rw [ended] at loops
        exact .started started loops

end Loop

section Run

variable {m : Machine} {entry : Bytes}

/-- A start is not cut off. -/
theorem not_cutOff_start {stop : Stop} (failed : (m.start entry).1 = .error stop) (status : Int) :
    ¬ Ending.CutOff ⟨status, some stop⟩ := by
  have quiet : Quiet True (Exec.push returnSentinel) := .push _
  have ordinary := (quiet.calm m).ordinary trivial
  have opened : (Exec.push returnSentinel).run m = perform (Exec.push returnSentinel) m := rfl
  rintro ⟨count, same⟩
  have limit : stop.fault = .stepLimit count := Option.some.inj same
  unfold start at failed
  cases found : m.label? entry with
  | none =>
    rw [found] at failed
    cases failed
    cases limit
  | some index =>
    rw [found, opened] at failed
    dsimp only at failed
    generalize perform (Exec.push returnSentinel) m = result at ordinary failed
    rcases result with ⟨fault | _, next⟩
    · cases failed
      have known := ordinary fault rfl
      rw [show fault = .stepLimit count from limit] at known
      cases known
    · cases failed

theorem run_of_start {next : Machine} (started : m.start entry = (.ok (), next))
    (fresh : m.steps = 0) : m.run entry = runWithin m.stepBound.toNat next := by
  have bound := stepBound_start m entry
  have steps := (start_keeps m entry).1.steps
  rw [started] at bound steps
  dsimp only at bound steps
  simp only [run, started, bound, steps, fresh, Int.natCast_zero, Int.sub_zero]

/-- Running, stepping and tracing an assembled program agree, from every entry and under every bound
on the steps. Every run ends, as the loop that counts no rounds says. One that is not cut off makes
no more steps than its bound; it has the same end under every larger bound, and in a trace that goes
on for long enough. One that is cut off has made as many steps after its start as its bound says, and
all of them have succeeded. -/
theorem run_stepping_tracing_agree {code : Bytes} {image : Assembly.Image} {sink : Sink}
    {maxSteps : Int} {first : Machine} (assembled : Assembly.assemble code = .ok image)
    (loaded : Machine.load { sink, maxSteps } image = .ok first) (entry : Bytes) :
    (∀ e last, Runs first entry e last ↔ first.run entry = (e, last)) ∧
    (¬ (first.run entry).1.CutOff →
      (first.run entry).2.steps ≤ first.stepBound.toNat ∧
      (∀ other, first.stepBound ≤ (first.withBound other).stepBound →
        (first.withBound other).run entry =
          ((first.run entry).1, (first.run entry).2.withBound other)) ∧
      ∀ fuel, (first.run entry).2.steps < fuel →
        (first.trace entry fuel).2 = (some (first.run entry).1, (first.run entry).2)) ∧
    ((first.run entry).1.CutOff →
      ∃ next, first.start entry = (.ok (), next) ∧ next.steps = 0 ∧
        Exhausts next first.stepBound.toNat (first.run entry).1 (first.run entry).2) := by
  have ready : first.text = image.text ∧ first.status = 0 ∧ first.steps = 0 := by
    simp only [load] at loaded
    split at loaded
    · cases loaded
    · cases loaded
      exact ⟨rfl, rfl, rfl⟩
  obtain ⟨text, clear, unstepped⟩ := ready
  obtain ⟨kept, _, status⟩ := start_keeps first entry
  refine ⟨fun e last => runs_iff, ?_⟩
  cases started : first.start entry with
  | mk result next =>
    rw [started] at kept status
    dsimp only at kept status
    have fresh : next.steps = 0 := kept.steps.trans unstepped
    have others (other : Int) :
        (first.withBound other).start entry = (result, next.withBound other) := by
      rw [start_withBound, started]
    cases result with
    | error stop =>
      have ended : first.run entry = (⟨0, some stop⟩, next) := by simp only [run, started]
      have ends := not_cutOff_start (congrArg Prod.fst started) 0
      rw [ended]
      refine ⟨fun _ => ⟨by rw [fresh]; exact Nat.zero_le _, fun other _ => ?_, fun fuel _ => ?_⟩,
        fun cut => absurd cut ends⟩
      · simp only [run, others]
      · simp only [trace, started]
    | ok _ =>
      rw [run_of_start started unstepped]
      refine ⟨fun ends => ⟨?_, fun other larger => ?_, fun fuel enough => ?_⟩, fun cut => ?_⟩
      · have most := steps_runWithin_le first.stepBound.toNat next
        omega
      · rw [run_of_start (others other) unstepped, runWithin_withBound,
          runWithin_of_le (Int.toNat_le_toNat larger) ends]
      · simp only [trace, started]
        exact traceWithin_eq_runWithin (fun _ => status.trans clear) ends (by omega) []
      · exact ⟨next, rfl, fresh, exhausts_of_cutOff
          (kept.text.trans text ▸ Assembly.isFormed_of_assemble assembled) cut⟩

/-- A program that returns with its second step, and one that does not return. -/
private def spinning : Bytes :=
  "main:\n\tmovl $7,%eax\n\tret\nspin:\n\tjmp spin\n"

theorem run_stepping_tracing_agree_spinning :
    ∃ image first, Assembly.assemble spinning = .ok image ∧
      Machine.load { maxSteps := 2 } image = .ok first ∧
      (first.run "main").1 = ⟨7, none⟩ ∧
      (first.withBound 100).run "main" = (⟨7, none⟩, (first.run "main").2.withBound 100) ∧
      (first.trace "main" 3).2 = (some ⟨7, none⟩, (first.run "main").2) ∧
      ∃ next, first.start "spin" = (.ok (), next) ∧ next.steps = 0 ∧
        Exhausts next 2 (first.run "spin").1 (first.run "spin").2 := by
  have endings : ((Assembly.assemble spinning).toOption.bind fun image =>
      (Machine.load { maxSteps := 2 } image).toOption.map fun first =>
        ((first.run "main").1, (first.run "spin").1, first.maxSteps)) =
          some (⟨7, none⟩, ⟨0, some ⟨.stepLimit 2, none⟩⟩, 2) := by decide +kernel
  cases assembled : Assembly.assemble spinning with
  | error _ =>
    rw [assembled] at endings
    cases endings
  | ok image =>
    rw [assembled] at endings
    cases loaded : Machine.load { maxSteps := 2 } image with
    | error _ =>
      simp only [Except.toOption, Option.bind_some, loaded] at endings
      cases endings
    | ok first =>
      simp only [Except.toOption, Option.bind_some, loaded, Option.map_some, Option.some.injEq,
        Prod.mk.injEq] at endings
      obtain ⟨returns, spins, two⟩ := endings
      have bound : first.stepBound = 2 := by simp [stepBound, two]
      obtain ⟨_, settled, _⟩ := run_stepping_tracing_agree assembled loaded "main"
      obtain ⟨_, _, cut⟩ := run_stepping_tracing_agree assembled loaded "spin"
      rw [returns, bound] at settled
      rw [bound] at cut
      obtain ⟨most, larger, traced⟩ := settled (by rintro ⟨_, ⟨⟩⟩)
      exact ⟨image, first, rfl, loaded, returns, larger 100 (by simp [stepBound, withBound]),
        traced 3 (Nat.lt_succ_of_le most), cut (by rw [spins]; exact ⟨2, rfl⟩)⟩

end Run

end Onepass.Machine
