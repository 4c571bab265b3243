import ProceduralScene.Proofs.Evaluation.Indifference
import ProceduralScene.Proofs.Scene.Coherence

/-! Evaluation only reads the queue. Queues with the same entries in flight and the same results may
differ in their caches, and in the numbers that order their entries; as long as each cache is
coherent no node evaluates differently on them, and all that it changes are the caches. -/
namespace ProceduralScene

open Evaluation

variable {β : Type}

namespace Scene

structure Resembling (c d q r : Queue Network) : Prop where
  left : Queue.Shows c q
  right : Queue.Shows d r
  inFlight : c.inFlight = d.inFlight
  results : c.results = d.results

theorem indistinct_resembling (c d : Queue Network) : Indistinct (Resembling c d) where
  inFlight resembling := by
    rw [resembling.left.inFlight, resembling.right.inFlight, resembling.inFlight]
  results resembling := by
    rw [resembling.left.results, resembling.right.results, resembling.results]
  artifact resembling := by
    refine resembling.left.coherent.artifact_congr resembling.right.coherent ?_
    rw [resembling.left.results, resembling.right.results, resembling.results]
  cached resembling kind :=
    ⟨resembling.left.cached kind, resembling.right.cached kind, resembling.inFlight,
      resembling.results⟩

/-- An evaluation from one scope, on one queue and on another. It comes to the same, and either
queue is as before but for its cache, which is coherent again. -/
structure OnlyReads (x : Evaluation Network β) (s : Scope Network) (q r : Queue Network) :
    Prop where
  outcome : (on x { s with queue := q }).1 = (on x { s with queue := r }).1
  value : (on x { s with queue := q }).2.value = (on x { s with queue := r }).2.value
  choices : (on x { s with queue := q }).2.trace = (on x { s with queue := r }).2.trace
  left : Queue.Shows q.uncached (on x { s with queue := q }).2.queue
  right : Queue.Shows r.uncached (on x { s with queue := r }).2.queue

theorem onlyReads_of_indifferent {x : Evaluation Network β}
    (indifferent : ∀ c d, Indifferent (Resembling c d) x) (s : Scope Network)
    {q r : Queue Network} (inFlight : q.inFlight = r.inFlight) (results : q.results = r.results)
    (left : q.Coherent) (right : r.Coherent) : OnlyReads x s q r := by
  have resembling : Resembling q.uncached r.uncached q r :=
    ⟨⟨rfl, left⟩, ⟨rfl, right⟩, inFlight, results⟩
  obtain ⟨outcome, after⟩ := indifferent _ _ { s with queue := q } { s with queue := r }
    ⟨⟨resembling, rfl⟩, rfl⟩
  exact ⟨outcome, after.value, after.trace, after.queue.left, after.queue.right⟩

/-- Whatever a node of a scene does, its own evaluation and that of its expressions only read. -/
theorem evaluator_onlyReads (scene : SceneConfig) (program : Program) (entryId seed : String)
    (fuel : Nat) (node : Transformation) (s : Scope Network) {q r : Queue Network}
    (inFlight : q.inFlight = r.inFlight) (results : q.results = r.results) (left : q.Coherent)
    (right : r.Coherent) :
    let ev : Evaluator Network := ⟨program, operations scene, entryId, seed⟩
    OnlyReads (ev.step (ev.resolve fuel) node) s q r ∧
      OnlyReads (ev.evaluate fuel node) s q r ∧ OnlyReads (ev.resolve fuel node) s q r := by
  intro ev
  have respects (c d : Queue Network) : ev.operations.Respects (Resembling c d) :=
    operations_respects (indistinct_resembling c d) scene
  refine ⟨onlyReads_of_indifferent ?_ s inFlight results left right,
    onlyReads_of_indifferent ?_ s inFlight results left right,
    onlyReads_of_indifferent ?_ s inFlight results left right⟩
  · exact fun c d => Evaluator.indifferent_step (respects c d) fuel node
  · exact fun c d => Evaluator.indifferent_evaluate (respects c d) fuel node
  · exact fun c d => Evaluator.indifferent_resolve (respects c d) fuel node

def lane : Entry where
  id := "0"
  value := ⟨.pathway ⟨[⟨0, 0, 2, "lane"⟩, ⟨10, 0, 2, "lane"⟩], "street"⟩, .empty⟩
  seed := "0"
  pending := []

/-- Queues that hold the street: nobody read the first, and the second was read too early. -/
def unread : Queue Network := Queue.empty.push lane .static
def readEarly : Queue Network := (Network.cached .empty "street").2.push lane .static

def lot : Transformation :=
  let place := Transformation.operation "place" "randomPointOn" [.literal "kind" (.text "street")]
  .stochasticSwitch "lot" [0.5, 0.5] [place, place]

def drawing : Evaluation Network Unit :=
  Evaluator.evaluate ⟨.empty, operations {}, "1", "0"⟩ 5 lot

theorem lot_onlyReads :
    (unread.cache.entries.length, readEarly.cache.entries.length) = (0, 1) ∧
      OnlyReads drawing ⟨⟨.empty, some #[]⟩, ⟨.nil, .empty⟩⟩ unread readEarly ∧
        (on drawing ⟨⟨unread, some #[]⟩, ⟨.nil, .empty⟩⟩).2.value.payload.isNil = false := by
  refine ⟨by decide +kernel, ?_, by decide +kernel⟩
  refine (evaluator_onlyReads {} .empty "1" "0" 5 lot ⟨⟨.empty, some #[]⟩, ⟨.nil, .empty⟩⟩
    (q := unread) (r := readEarly) rfl rfl ?_ ?_).2.1
  · exact Queue.coherent_empty.push lane .static
  · exact (Queue.coherent_empty.cached "street").push lane .static

end Scene
end ProceduralScene
