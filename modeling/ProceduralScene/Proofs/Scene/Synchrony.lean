import ProceduralScene.Proofs.Interpreter.Drive
import ProceduralScene.Proofs.Scene.Operations

/-! Evaluation in place and the scheduler agree on a scene. What a node makes of a value in place,
the scheduler makes of an entry that has only this node to run: it retires with that value and
nothing else happens to the results, or the same error stops it. Only a split is different, which
the scheduler carries out and evaluation in place refuses. -/
namespace ProceduralScene.Scene

open Evaluation

theorem indistinct_quiet (results : Array Entry) :
    Indistinct (Queue.Quiet results : Queue Network → Queue Network → Prop) where
  inFlight quiet := by
    simp only [Queue.inFlight, quiet.slots, quiet.slots']
  results quiet := quiet.retired.trans quiet.retired'.symm
  artifact quiet kind := congrArg Reading.artifact (quiet.cached _ _ _).1
  cached quiet kind := (quiet.cached _ _ _).2

theorem engine_respects_quiet (scene : SceneConfig) (config : EngineConfig)
    (results : Array Entry) :
    (engine scene config).operations.Respects (Queue.Quiet results) := by
  rw [engine_operations]
  exact operations_respects (indistinct_quiet results) scene

theorem retired_of_works {g : Engine Network Snapshot} {results : Array Entry} {id seed : String}
    {w : World Network} {s : Scope Network} (works : g.Works results id seed [] w s) :
    w.queue.slots = [] ∧ w.queue.results = results.push ⟨id, s.value, seed, []⟩ := by
  obtain ⟨q, queue, quiet⟩ := works
  rw [queue, Engine.schedule, Queue.push, if_pos (by rfl)]
  refine ⟨quiet.slots', ?_⟩
  rw [Queue.retire, quiet.retired']

/-- The two drivers agree on every node. The scheduler may take any number of turns from some
number on, and may nest as deep as evaluation in place or deeper. -/
theorem drive_evaluate (scene : SceneConfig) (config : EngineConfig) (program : Program)
    (id seed : String) (node : Transformation) {s : Scope Network} (idle : s.queue.slots = [])
    {w : World Network}
    (ready : w.queue = (engine scene config).schedule s.queue ⟨id, s.value, seed, [node]⟩)
    {fuel depth : Nat} (enough : fuel ≤ depth) :
    (∀ after,
      on (Evaluator.evaluate ⟨program, operations scene, id, seed⟩ fuel node) s = (.ok (), after) →
        ∃ turns final,
          (∀ more, (engine scene config).drive depth program (turns + more) w = (.ok (), final)) ∧
            final.queue.slots = [] ∧
            final.queue.results = s.queue.results.push ⟨id, after.value, seed, []⟩) ∧
    ∀ error after,
      on (Evaluator.evaluate ⟨program, operations scene, id, seed⟩ fuel node) s =
          (.error (.error error), after) →
        (∀ astId, error ≠ .forkInSynchronousEvaluation astId) →
          ∃ turns stopped, ∀ more,
            (engine scene config).drive depth program (turns + more) w =
              (.error (.error error), stopped) := by
  have respects := engine_respects_quiet scene config s.queue.results
  have works : (engine scene config).Works s.queue.results id seed [node] w s :=
    ⟨s.queue, ready, Queue.quiet_self idle⟩
  have follows := Engine.follows_evaluate respects program enough works
  rw [engine_operations] at follows
  constructor
  · intro after evaluated
    rw [evaluated] at follows
    obtain ⟨final, leads, works'⟩ := follows
    obtain ⟨slots, results⟩ := retired_of_works works'
    obtain ⟨turns, ends⟩ := leads.finish (by rw [Queue.hasWork, slots]; rfl)
    exact ⟨turns, final, ends, slots, results⟩
  · intro error after evaluated notFork
    rw [evaluated] at follows
    obtain ⟨w', stopped, leads, work, failed⟩ := follows notFork
    obtain ⟨turns, halts⟩ := leads.halt work failed
    exact ⟨turns, stopped, halts⟩

def noteAbsence : Transformation :=
  .sequential "all" [
    .setVariable "note" "absent" (.unary "not" .not (.this "value")),
    .getVariable "answer" "absent"]

theorem drive_noteAbsence :
    ∃ turns final,
      (∀ more, (engine {} {}).drive 4 .empty (turns + more)
        { queue := (engine {} {}).schedule .empty ⟨"0", ⟨.nil, .empty⟩, "seed", [noteAbsence]⟩ } =
          (.ok (), final)) ∧
        final.queue.slots = [] ∧
        final.queue.results =
          #[⟨"0", ⟨.bool true, Sorted.empty.insert "absent" (.bool true)⟩, "seed", []⟩] := by
  have evaluated :
      on (Evaluator.evaluate ⟨.empty, operations {}, "0", "seed"⟩ 4 noteAbsence)
        ⟨{}, ⟨.nil, .empty⟩⟩ =
          (.ok (), ⟨{}, ⟨.bool true, Sorted.empty.insert "absent" (.bool true)⟩⟩) := rfl
  exact (drive_evaluate {} {} .empty "0" "seed" noteAbsence rfl rfl (Nat.le_refl 4)).1 _ evaluated

end ProceduralScene.Scene
