import ProceduralScene.Proofs.Interpreter.Delivery

/-! The evaluations of one slice. A slice goes from one evaluation to the next until it is over, and
looks at nothing but the queue to tell; so how many it takes is settled by the world in which it
starts. Its report is about that world and the one that it has come to. -/
namespace ProceduralScene

variable {α β : Type}

namespace Engine

inductive Evaluates (g : Engine α β) (depth : Nat) (program : Program) :
    Nat → World α → World α → Prop where
  | none (w : World α) : Evaluates g depth program 0 w w
  | turn {k : Nat} {w last : World α} {entry : Entry} {rest : Queue α} {node : Transformation}
    {nodes : List Transformation} {step : Step} {after : Scope α}
    (popped : w.queue.pop = some (entry, rest)) (pending : entry.pending = node :: nodes)
    (evaluated : g.evaluated depth program { w with queue := rest } entry node = (.ok step, after))
    (later : Evaluates g depth program k (g.settled entry node nodes step after) last) :
    Evaluates g depth program (k + 1) w last

variable {g : Engine α β} {depth : Nat} {program : Program}

theorem Evaluates.take {k : Nat} {w last : World α} (evaluates : g.Evaluates depth program k w last)
    {j : Nat} (fewer : j ≤ k) : ∃ mid, g.Evaluates depth program j w mid := by
  induction evaluates generalizing j with
  | none w =>
    obtain rfl : j = 0 := by omega
    exact ⟨w, .none w⟩
  | @turn k w last entry rest node nodes step after popped pending evaluated later ih =>
    cases j with
    | zero => exact ⟨w, .none w⟩
    | succ j =>
      obtain ⟨mid, first⟩ := ih (j := j) (by omega)
      exact ⟨mid, .turn popped pending evaluated first⟩

theorem evaluates_of_advance {w next : World α} (kept : w.queue.Kept)
    (work : w.queue.hasWork = true) (advanced : g.advance depth program w = (.ok (), next))
    {k : Nat} {last : World α} :
    g.Evaluates depth program (k + 1) w last ↔ g.Evaluates depth program k next last := by
  cases slots : w.queue.slots with
  | nil =>
    rw [Queue.hasWork, slots] at work
    cases work
  | cons slot behind =>
    have popped : w.queue.pop = some (slot.entry, { w.queue with slots := behind }) := by
      rw [Queue.pop, slots]
    have unfinished : slot.entry.pending ≠ [] :=
      kept.unfinished (List.mem_map.mpr ⟨slot, by rw [slots]; exact List.mem_cons_self, rfl⟩)
    cases pending : slot.entry.pending with
    | nil => exact absurd pending unfinished
    | cons node nodes =>
      rw [g.advance_of_pop popped pending] at advanced
      rcases evaluated : g.evaluated depth program
        { w with queue := { w.queue with slots := behind } } slot.entry node with ⟨_ | step, after⟩
      · rw [evaluated] at advanced
        cases advanced
      · rw [evaluated] at advanced
        cases advanced
        refine ⟨fun evaluates => ?_, .turn popped pending evaluated⟩
        cases evaluates with
        | turn popped' pending' evaluated' later =>
          cases popped'.symm.trans popped
          cases pending'.symm.trans pending
          cases evaluated'.symm.trans evaluated
          exact later

/-- A slice stops after its last evaluation and not after an earlier one. -/
theorem slice_evaluates (steady : g.operations.Steady) {span : Span}
    {fuel steps k : Nat} {w last : World α} (kept : w.queue.Kept)
    (sliced : g.slice depth program span fuel steps w = (.ok k, last)) :
    ∃ n, k = steps + n ∧ g.Evaluates depth program n w last ∧
      g.pauses span k last.queue = true ∧ ∀ j mid, j < n → g.Evaluates depth program j w mid →
        g.pauses span (steps + j) mid.queue = false := by
  induction fuel generalizing steps w with
  | zero => cases sliced
  | succ fuel ih =>
    rw [slice] at sliced
    split at sliced
    next stops =>
      cases sliced
      exact ⟨0, rfl, .none last, stops, fun j mid early => absurd early (Nat.not_lt_zero j)⟩
    next running =>
      have work : w.queue.hasWork = true := hasWork_of_running running
      rcases advanced : g.advance depth program w with ⟨fault | _, next⟩
      · rw [advanced] at sliced
        cases sliced
      · rw [advanced] at sliced
        have kept' := (advance_turns steady kept rfl work advanced).kept kept
        obtain ⟨n, count, evaluates, stops, early⟩ := ih kept' sliced
        refine ⟨n + 1, by omega, (evaluates_of_advance kept work advanced).mpr evaluates, stops, ?_⟩
        intro j mid before first
        cases j with
        | zero =>
          cases first
          exact Bool.not_eq_true _ ▸ running
        | succ j =>
          rw [evaluates_of_advance kept work advanced] at first
          rw [show steps + (j + 1) = steps + 1 + j by omega]
          exact early j mid (by omega) first

end Engine

namespace Interpreter

/-- What a slice has done and what its report says of it. The slice started in the interpreter's
world and came to the last one. -/
structure Sliced (i : Interpreter α β) (fuel : Nat) (program : Program) (report : Report β)
    (last : World α) : Prop where
  evaluates : i.engine.Evaluates fuel program report.steps i.world last
  stops : i.engine.pauses i.span report.steps last.queue = true
  early : ∀ j mid, j < report.steps → i.engine.Evaluates fuel program j i.world mid →
    i.engine.pauses i.span j mid.queue = false
  start : report.start = i.queue.progress?
  published : report.published = (i.engine.domain.publish last.queue).1
  current : report.current = last.queue.progress?
  isFinal : report.isFinal = !last.queue.hasWork
  token : report.token.isSome = i.wantsMore last

variable {i next : Interpreter α β} {fuel : Nat} {program : Program} {report : Report β}

theorem run_sliced (steady : i.engine.operations.Steady)
    (publishes : ∀ q, (i.engine.domain.publish q).2.uncached = q.uncached)
    (kept : i.queue.Kept) (ran : i.run fuel program = (.ok report, next)) :
    ∃ last, i.Sliced fuel program report last ∧ next.queue.uncached = last.queue.uncached := by
  dsimp only [run] at ran
  rcases sliced : i.engine.slice fuel program i.span fuel 0 i.world with
    ⟨(error | _) | steps, last⟩
  · rw [sliced] at ran
    cases ran
  · rw [sliced] at ran
    cases ran
  · rw [sliced] at ran
    obtain ⟨n, count, evaluates, stops, early⟩ := Engine.slice_evaluates steady kept sliced
    rw [Nat.zero_add] at count
    subst count
    -- publishing leaves all that the report reads as it was
    have same := publishes last.queue
    have progress := Queue.progress?_of_uncached same
    have work := Queue.hasWork_of_uncached same
    have more :
        i.elapsed.wantsMore { last with queue := (i.engine.domain.publish last.queue).2 } =
          i.wantsMore last := by
      simp only [wantsMore, progress, work]
      rfl
    cases ran
    refine ⟨last, ⟨evaluates, stops, fun j mid before first => ?_, rfl, rfl, progress, ?_, ?_⟩, same⟩
    · have goesOn := early j mid before first
      rwa [Nat.zero_add] at goesOn
    · exact congrArg (!·) work
    · dsimp only [Interpreter.report]
      rw [show i.elapsed.engine = i.engine from rfl, more]
      cases i.wantsMore last <;> rfl

theorem run_of_idle (idle : i.queue.hasWork = false) (fuel : Nat) (program : Program) :
    i.run (fuel + 1) program = i.elapsed.report i.span.start 0 i.world := by
  have stops : i.engine.pauses i.span 0 i.world.queue = true := by
    simp [Engine.pauses, show i.world.queue.hasWork = false from idle]
  simp only [run, Engine.slice, stops, if_true]

theorem control_of_idle {control : Control} (accepted : i.refusal? (.go control) = none)
    (goes : control ≠ .cancel) (idle : i.queue.hasWork = false) (fuel : Nat) :
    (i.control 0 control).1 = some (.error .outOfFuel) ∧
      ∃ report, (i.control (fuel + 1) control).1 = some (.ok report) := by
  obtain ⟨entered, program, _, enters⟩ := enter?_of_accepted accepted goes
  have world := (enter?_some enters).1
  have still : entered.queue.hasWork = false := by rwa [queue, world]
  rw [control_of_enter? enters, control_of_enter? enters, run_of_idle still]
  exact ⟨rfl, _, rfl⟩

end Interpreter
end ProceduralScene
