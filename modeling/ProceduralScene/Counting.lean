import ProceduralScene.Interpreter.Basic
import ProceduralScene.Interpreter.Config

/-! The smallest domain: payloads are numbers, a number is its own progress, and a slice
publishes once it has advanced by more than 3. It shows the engine without a scene. -/
namespace ProceduralScene.Counting

def numberOr0 (payload : Option Payload) : Float := (payload.bind Payload.number?).getD 0

def add (call : Call Nat) : Except EvalError Step :=
  return .replace (.number (numberOr0 call.this + (← call.number 0)))

def split (call : Call Nat) : Except EvalError Step := do
  let amount := Binary64.truncateNat (UInt64.size - 1) (← call.number 0)
  return .fork (List.replicate amount (call.this.getD .nil)) []

def finished (call : Call Nat) : Except EvalError Step × Option (Queue Nat) :=
  match call.theQueue with
  | .error error => (.error error, call.queue)
  | .ok queue =>
    let (reading, queue) := queue.cached "finished" (fun _ => true) fun results =>
      some results.length
    (.ok (.replace (.number (reading.artifact.getD 0 : Nat).toFloat)), some queue)

def operations : Registry Nat := .ofList [
  ("add", (Operation.ofStep add).withThis),
  ("split", (Operation.ofStep split).withThis),
  ("finished", { execute := finished, receivesQueue := true })]

/-- Ids and payloads in the order of the ids, results before entries in flight. -/
abbrev Counts := List (String × Payload)

def publish (queue : Queue Nat) : Counts × Queue Nat :=
  let all := (queue.retired ++ queue.inFlight).map fun entry => (entry.id, entry.payload)
  (all.mergeSort fun a b => a.1 ≤ b.1, queue)

def domain : Domain Nat Counts where
  createValue vars _ := .ok ((vars.get? "start").getD (.number 0))
  progress payload := (payload.number?.map Progress.ofFloat).getD .static
  interrupts start current := current.value - start.value > 3
  publish := publish

def engine (config : EngineConfig) : Engine Nat Counts where
  domain := domain
  operations := operations
  budget := config.computeDurationMs

def interpreter (config : EngineConfig) : Interpreter Nat Counts where
  engine := engine config

end ProceduralScene.Counting
