import ProceduralScene.Evaluation.Evaluator
import ProceduralScene.Interpreter.Domain

/-! The scheduler. One advance evaluates the next node of the first entry and puts the entries
that follow it back in order; a slice is a number of advances, chosen by the clock and by the
domain, and nothing else depends on how a run is cut into slices. -/
namespace ProceduralScene

/-- All that stays the same from run to run. The budget of a slice is in milliseconds. -/
structure Engine (α β : Type) where
  domain : Domain α β
  operations : Registry α
  budget : Nat

/-- What a slice is measured by: the progress at its start, and the milliseconds that have passed
since then once it has taken so many steps. -/
structure Span where
  start : Option Progress
  elapsed : Nat → Nat

namespace Engine

variable {α β : Type} (g : Engine α β)

def schedule (queue : Queue α) (entry : Entry) : Queue α :=
  queue.push entry (g.domain.progress entry.payload)

/-- The root entry of a description; none if it is not to be run. The root noun must exist
either way. -/
def root (ordinal : Nat) (name : String) (d : Description) : Except EvalError (Option Entry) := do
  match d.rootNoun? with
  | none => throw (.unknownRootNoun name d.root)
  | some noun =>
    if d.isInterpreted then
      let payload ← g.domain.createValue d.initialVariables noun.astId
      let value : Value := ⟨payload, d.initialVariables⟩
      return some {
        id := toString ordinal
        value := value.branch payload 0
        seed := d.seed
        pending := [noun.transformation] }
    else return none

/-- Queues the root entries up to the first failure. Every description counts as an ordinal. -/
def seed : Nat → List (String × Description) → Queue α → Except EvalError Unit × Queue α
  | _, [], queue => (.ok (), queue)
  | ordinal, (name, d) :: rest, queue =>
    match g.root ordinal name d with
    | .error error => (.error error, queue)
    | .ok none => seed (ordinal + 1) rest queue
    | .ok (some entry) => seed (ordinal + 1) rest (g.schedule queue entry)

def evaluator (program : Program) (entry : Entry) : Evaluator α where
  program := program
  operations := g.operations
  entryId := entry.id
  seed := entry.seed

/-- Evaluates the next node of the first entry. An entry that fails is gone from the queue. -/
def advance (fuel : Nat) (program : Program) (w : World α) : Except Fault Unit × World α :=
  match w.queue.pop with
  | none => (.ok (), w)
  | some (entry, queue) =>
    match entry.pending with
    | [] => (.ok (), { w with queue := g.schedule queue entry })
    | node :: rest =>
      let ev := g.evaluator program entry
      let w := { w with queue }.record (.before node entry.value)
      match (ev.step (ev.resolve fuel) node).run.run { w with value := entry.value } with
      | (.error fault, after) => (.error fault, after.toWorld)
      | (.ok step, after) =>
        let entries := step.successors { entry with value := after.value, pending := rest }
        let w := after.toWorld.record (.after node (entries.map (·.value)))
        (.ok (), { w with queue := entries.foldl g.schedule w.queue })

/-- Whether a slice is over after a number of steps. It takes a first step whenever there is
work; without a budget it takes no other. -/
def pauses (span : Span) (steps : Nat) (queue : Queue α) : Bool :=
  !queue.hasWork || (steps != 0 && (g.budget ≤ span.elapsed steps ||
    match span.start, queue.progress? with
    | some start, some current => g.domain.interrupts start current
    | _, _ => false))

def slice (depth : Nat) (program : Program) (span : Span) :
    Nat → Nat → World α → Except Fault Nat × World α
  | 0, _, w => (.error .outOfFuel, w)
  | fuel + 1, steps, w =>
    if g.pauses span steps w.queue then (.ok steps, w)
    else
      match g.advance depth program w with
      | (.error fault, w) => (.error fault, w)
      | (.ok (), w) => slice depth program span fuel (steps + 1) w

end Engine
end ProceduralScene
