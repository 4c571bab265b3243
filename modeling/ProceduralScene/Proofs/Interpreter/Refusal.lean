import ProceduralScene.Proofs.Interpreter.History
import ProceduralScene.Proofs.Interpreter.Turn

/-! Refused calls and failed ones. A call that comes at the wrong time is refused with one of four
errors and changes nothing. These errors are the interpreter's own: as long as the operations and
the making of first payloads do not take them for theirs, no evaluation fails with one, so a caller
can tell a refusal from a failure. -/
namespace ProceduralScene

open Evaluation

variable {α β : Type}

def EvalError.isRefusal : EvalError → Bool
  | alreadyRunning | notStarted | staleResumption | halted => true
  | _ => false

theorem EvalError.not_refusal_of_site {error : EvalError} (site : error.site?.isSome = true) :
    error.isRefusal = false := by
  cases error <;> first | rfl | cases site

/-- What an engine calls does not fail with the interpreter's own errors. -/
structure Engine.Candid (g : Engine α β) : Prop where
  creates : ∀ vars astId error, g.domain.createValue vars astId = .error error →
    error.isRefusal = false
  calls : ∀ name operation, g.operations.get? name = some operation → ∀ call error,
    (operation.execute call).1 = .error error → error.isRefusal = false

namespace Engine

variable {g : Engine α β} (candid : g.Candid)

include candid

theorem Candid.confined (program : Program) (entry : Entry) :
    (g.evaluator program entry).Confined (fun _ => True) fun error => error.isRefusal = false where
  below _ _ _ _ := trivial
  nouns _ _ _ _ := trivial
  located _ := EvalError.not_refusal_of_site
  calls node name operation _ _ found parameters scope := by
    have answers := candid.calls name operation found
      ((g.evaluator program entry).call node name operation parameters scope)
    cases answered : (operation.execute
      ((g.evaluator program entry).call node name operation parameters scope)).1 with
    | error error => exact answers error answered
    | ok step => exact fun _ _ => trivial

theorem Candid.advance_error {depth : Nat} {program : Program} {w after : World α}
    {error : EvalError} (failed : g.advance depth program w = (.error (.error error), after)) :
    error.isRefusal = false := by
  cases popped : w.queue.pop with
  | none =>
    rw [g.advance_of_pop_none popped] at failed
    cases failed
  | some taken =>
    obtain ⟨entry, rest⟩ := taken
    cases pending : entry.pending with
    | nil =>
      rw [g.advance_of_terminal popped pending] at failed
      cases failed
    | cons node nodes =>
      rw [g.advance_of_pop popped pending] at failed
      have met := evaluated_meets (candid.confined program entry) node trivial depth
        { w with queue := rest }
      rcases evaluated : g.evaluated depth program { w with queue := rest } entry node with
        ⟨fault | step, scope⟩
      · rw [evaluated] at failed met
        cases failed
        exact met
      · rw [evaluated] at failed
        cases failed

theorem Candid.slice_error {depth : Nat} {program : Program} {span : Span}
    {fuel steps : Nat} {w after : World α} {error : EvalError}
    (failed : g.slice depth program span fuel steps w = (.error (.error error), after)) :
    error.isRefusal = false := by
  induction fuel generalizing steps w with
  | zero => cases failed
  | succ fuel ih =>
    rw [slice] at failed
    split at failed
    · cases failed
    · rcases advanced : g.advance depth program w with ⟨fault | _, next⟩
      · rw [advanced] at failed
        cases failed
        exact candid.advance_error advanced
      · rw [advanced] at failed
        exact ih failed

theorem Candid.seed_error {ordinal : Nat} {descriptions : List (String × Description)}
    {q after : Queue α} {error : EvalError}
    (failed : g.seed ordinal descriptions q = (.error error, after)) :
    error.isRefusal = false := by
  induction descriptions generalizing ordinal q with
  | nil => cases failed
  | cons description rest ih =>
    obtain ⟨name, d⟩ := description
    rw [seed] at failed
    split at failed
    next error' made =>
      cases failed
      unfold root at made
      split at made
      · cases made
        rfl
      next noun _ =>
        split at made
        · cases created : g.domain.createValue d.initialVariables noun.astId with
          | error error =>
            rw [created] at made
            cases made
            exact candid.creates _ _ _ created
          | ok payload =>
            rw [created] at made
            cases made
        · cases made
    · exact ih failed
    · exact ih failed

end Engine

inductive Command where
  | begin (program : Program) (requested : Progress)
  | go (control : Control)

def Command.target? : Command → Option Progress
  | .begin _ requested | .go (.request requested) => some requested
  | _ => none

namespace Interpreter

def perform (fuel : Nat) (i : Interpreter α β) :
    Command → Option (Except Fault (Report β)) × Interpreter α β
  | .begin program requested => let (answer, i) := i.begin fuel program requested; (some answer, i)
  | .go control => i.control fuel control

def refusal? (i : Interpreter α β) : Command → Option EvalError
  | .begin _ _ => if i.isRunning then some .alreadyRunning else none
  | .go (.resume token) =>
    if i.halted then some .halted
    else if i.pending ≠ some token.number then some .staleResumption
    else if i.program.isNone then some .notStarted
    else none
  | .go (.request _) =>
    if i.program.isNone then some .notStarted
    else if i.halted then some .halted
    else none
  | .go .cancel => none

theorem isRefusal_of_refused {i : Interpreter α β} {command : Command} {error : EvalError}
    (refused : i.refusal? command = some error) : error.isRefusal = true := by
  cases command with
  | begin program requested =>
    simp only [refusal?] at refused
    split at refused <;> cases refused
    rfl
  | go control =>
    cases control with
    | resume token =>
      simp only [refusal?] at refused
      split at refused
      · cases refused
        rfl
      · split at refused
        · cases refused
          rfl
        · split at refused <;> cases refused
          rfl
    | request requested =>
      simp only [refusal?] at refused
      split at refused
      · cases refused
        rfl
      · split at refused <;> cases refused
        rfl
    | cancel => cases refused

theorem resume_of_refused {i : Interpreter α β} {token : Token} {error : EvalError}
    (refused : i.refusal? (.go (.resume token)) = some error) (fuel : Nat) :
    i.resume fuel token = (.error (.error error), i) := by
  simp only [refusal?] at refused
  by_cases halted : i.halted = true
  · rw [if_pos halted] at refused
    cases refused
    rw [resume, if_pos halted]
  · rw [if_neg halted] at refused
    by_cases stale : i.pending = some token.number
    · rw [if_neg (not_not_intro stale)] at refused
      cases known : i.program with
      | none =>
        simp only [known, Option.isNone_none, if_true] at refused
        cases refused
        simp [resume, halted, stale, known]
      | some program => simp [known] at refused
    · rw [if_pos stale] at refused
      cases refused
      rw [resume, if_neg halted, if_pos stale]

theorem requestProgress_of_refused {i : Interpreter α β} {requested : Progress} {error : EvalError}
    (refused : i.refusal? (.go (.request requested)) = some error) (fuel : Nat) :
    i.requestProgress fuel requested = (.error (.error error), i) := by
  simp only [refusal?] at refused
  cases known : i.program with
  | none =>
    simp only [known, Option.isNone_none, if_true] at refused
    cases refused
    simp only [requestProgress, known]
  | some program =>
    by_cases halted : i.halted = true
    · simp only [known, Option.isNone_some, Bool.false_eq_true, if_false, halted, if_true]
        at refused
      cases refused
      simp only [requestProgress, known, halted, if_true]
    · simp [known, halted] at refused

theorem perform_of_refused {i : Interpreter α β} {command : Command} {error : EvalError}
    (refused : i.refusal? command = some error) (fuel : Nat) :
    i.perform fuel command = (some (.error (.error error)), i) := by
  cases command with
  | begin program requested =>
    simp only [refusal?] at refused
    split at refused
    next running =>
      cases refused
      simp only [perform, begin, running, if_true]
    · cases refused
  | go control =>
    cases control with
    | resume token => rw [perform, Interpreter.control, resume_of_refused refused]
    | request requested =>
      rw [perform, Interpreter.control, requestProgress_of_refused refused]
    | cancel => cases refused

/-- The program that a call runs a slice of, and the world in which that slice starts. -/
def opening? (i : Interpreter α β) : Command → Option (Program × World α)
  | .begin program _ =>
    some (program, { i.world with queue := (i.engine.seed 0 program.entries .empty).2 })
  | .go _ => i.program.map fun program => (program, i.world)

theorem world_of_opening? {i : Interpreter α β} {command : Command} {program : Program}
    {first : World α} (opening : i.opening? command = some (program, first)) :
    first.trace = i.world.trace ∧
      (first.queue = (i.engine.seed 0 program.entries .empty).2 ∨
        (∃ control, command = .go control) ∧ first.queue = i.queue) := by
  cases command with
  | begin program requested =>
    cases opening
    exact ⟨rfl, .inl rfl⟩
  | go control =>
    obtain ⟨_, _, same⟩ := Option.map_eq_some_iff.mp opening
    cases same
    exact ⟨rfl, .inr ⟨⟨control, rfl⟩, rfl⟩⟩

structure TakesUp (i entered : Interpreter α β) (program : Program) : Prop where
  engine : entered.engine = i.engine
  clock : entered.clock = i.clock
  program : entered.program = some program
  issued : entered.issued = i.issued
  running : entered.halted = false

theorem enter?_of_accepted {i : Interpreter α β} {control : Control}
    (accepted : i.refusal? (.go control) = none) (goes : control ≠ .cancel) :
    ∃ entered program, i.TakesUp entered program ∧
      i.enter? control = some (entered, program) := by
  cases control with
  | resume token =>
    simp only [refusal?] at accepted
    split at accepted
    · cases accepted
    next running =>
      split at accepted
      · cases accepted
      next fresh =>
        cases known : i.program with
        | none => simp [known] at accepted
        | some program =>
          refine ⟨i, program, ⟨rfl, rfl, known, rfl, Bool.not_eq_true _ ▸ running⟩, ?_⟩
          simp only [enter?, known, Option.map_some]
          rw [if_neg]
          simpa [running] using fresh
  | request requested =>
    simp only [refusal?] at accepted
    cases known : i.program with
    | none => simp [known] at accepted
    | some program =>
      have running : i.halted = false := by simpa [known] using accepted
      refine ⟨{ i with requested, pending := none }, program, ⟨rfl, rfl, known, rfl, running⟩, ?_⟩
      simp only [enter?, running, known, Bool.false_eq_true, if_false, Option.map_some]
  | cancel => exact absurd rfl goes

theorem target_of_enter? {i entered : Interpreter α β} {program : Program}
    {control : Control} (enters : i.enter? control = some (entered, program)) :
    entered.requested = (Command.go control).target?.getD i.requested ∧ i.halted = false := by
  cases control with
  | resume token =>
    simp only [enter?] at enters
    split at enters
    · cases enters
    next admitted =>
      obtain ⟨_, _, same⟩ := Option.map_eq_some_iff.mp enters
      cases same
      simp only [Bool.or_eq_true, not_or, Bool.not_eq_true] at admitted
      exact ⟨rfl, admitted.1⟩
  | request requested =>
    simp only [enter?] at enters
    split at enters
    · cases enters
    next running =>
      obtain ⟨_, _, same⟩ := Option.map_eq_some_iff.mp enters
      cases same
      exact ⟨rfl, Bool.not_eq_true _ ▸ running⟩
  | cancel => cases enters

structure Enters (i : Interpreter α β) (command : Command) (entered : Interpreter α β)
    (program : Program) : Prop where
  takesUp : i.TakesUp entered program
  requested : entered.requested = command.target?.getD i.requested
  opening : i.opening? command = some (program, entered.world)
  alive : ∀ control, command = .go control → i.halted = false

/-- An accepted call runs a slice, unless the roots of its program cannot be made. -/
theorem perform_of_accepted {i : Interpreter α β} {command : Command}
    (accepted : i.refusal? command = none) (goes : command ≠ .go .cancel) (fuel : Nat) :
    ∃ entered program, i.Enters command entered program ∧
      (i.perform fuel command =
          (some (entered.run fuel program).1, (entered.run fuel program).2) ∨
        ∃ requested error queue, command = .begin program requested ∧
          i.engine.seed 0 program.entries .empty = (.error error, queue) ∧
          i.perform fuel command = (some (.error (.error error)), entered.halt entered.world)) := by
  cases command with
  | begin program requested =>
    simp only [refusal?, ite_eq_right_iff, reduceCtorEq, imp_false, Bool.not_eq_true] at accepted
    refine ⟨(i.seeded program requested).2, program,
      ⟨⟨rfl, rfl, rfl, rfl, rfl⟩, rfl, rfl, fun control same => nomatch same⟩, ?_⟩
    rcases seeded : i.engine.seed 0 program.entries .empty with ⟨error | _, queue⟩
    · refine .inr ⟨requested, error, queue, rfl, rfl, ?_⟩
      simp only [perform, begin, Interpreter.seeded, accepted, seeded, Bool.false_eq_true, if_false]
    · have ok : i.seeded program requested = (.ok (), (i.seeded program requested).2) := by
        simp only [Interpreter.seeded, seeded]
      rw [perform, begin_of_seeded accepted ok]
      exact .inl rfl
  | go control =>
    obtain ⟨entered, program, takesUp, enters⟩ :=
      enter?_of_accepted accepted fun same => goes (congrArg _ same)
    obtain ⟨world, _, _, known⟩ := enter?_some enters
    obtain ⟨requested, running⟩ := target_of_enter? enters
    refine ⟨entered, program, ⟨takesUp, requested, ?_, fun _ _ => running⟩,
      .inl (control_of_enter? enters fuel)⟩
    rw [opening?, known, world, Option.map_some]

theorem run_reports {i after : Interpreter α β} {fuel : Nat} {program : Program}
    {report : Report β} (ran : i.run fuel program = (.ok report, after)) :
    after.engine = i.engine ∧ after.program = i.program ∧ after.halted = i.halted ∧
      (report.token = none ∧ after.pending = none ∧ after.issued = i.issued ∨
        report.token = some ⟨i.issued + 1⟩ ∧ after.pending = some (i.issued + 1) ∧
          after.issued = i.issued + 1) := by
  dsimp only [run] at ran
  rcases sliced : i.engine.slice fuel program i.span fuel 0 i.world with
    ⟨(error | _) | steps, w⟩
  · rw [sliced] at ran
    cases ran
  · rw [sliced] at ran
    cases ran
  · rw [sliced] at ran
    simp only [Interpreter.report] at ran
    obtain ⟨rfl, rfl⟩ := Prod.mk.inj ran |>.imp (fun same => Except.ok.inj same) id
    refine ⟨rfl, rfl, rfl, ?_⟩
    dsimp only
    split
    · exact .inr ⟨rfl, rfl, rfl⟩
    · exact .inl ⟨rfl, rfl, rfl⟩

theorem run_fails {i after : Interpreter α β} {fuel : Nat} {program : Program} {error : EvalError}
    (ran : i.run fuel program = (.error (.error error), after)) :
    (∃ w, after = i.elapsed.halt w) ∧ (i.engine.Candid → error.isRefusal = false) := by
  dsimp only [run] at ran
  rcases sliced : i.engine.slice fuel program i.span fuel 0 i.world with
    ⟨(error' | _) | steps, w⟩
  · rw [sliced] at ran
    cases ran
    exact ⟨⟨w, rfl⟩, fun candid => candid.slice_error sliced⟩
  · rw [sliced] at ran
    cases ran
  · rw [sliced] at ran
    cases ran

end Interpreter
end ProceduralScene
