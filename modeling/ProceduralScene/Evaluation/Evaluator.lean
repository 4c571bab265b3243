import ProceduralScene.Draw
import ProceduralScene.Evaluation.Operators
import ProceduralScene.Evaluation.Registry
import ProceduralScene.Evaluation.Trace
import ProceduralScene.Program.Basic

/-! Evaluation of nodes. One step looks at one node and resolves nested expressions through a
resolver that it is given; evaluating to completion ties the knot, one unit of fuel for each
level of nesting. -/
namespace ProceduralScene

/-- Evaluation keeps the world, and the variables set so far, also when it fails. -/
abbrev Evaluation (α β : Type) := ExceptT Fault (StateM (Scope α)) β

namespace Evaluation

def fail (error : EvalError) : Evaluation α β := throw (.error error)

def lift : Except EvalError β → Evaluation α β
  | .ok b => pure b
  | .error error => fail error

def orFail (error : EvalError) : Option β → Evaluation α β
  | some b => pure b
  | none => fail error

def value : Evaluation α Value := return (← get).value

def setValue (value : Value) : Evaluation α Unit := modify fun scope => { scope with value }

def record (event : Event) : Evaluation α Unit :=
  modify fun scope => { scope with toWorld := scope.toWorld.record event }

/-- Evaluates on a private copy of the value and gives back its payload. -/
def scratch (x : Evaluation α Unit) : Evaluation α Payload :=
  ExceptT.mk fun scope =>
    let (outcome, after) := x.run.run scope
    (outcome.map fun _ => after.value.payload, { after with value := scope.value })

end Evaluation

/-- The first index whose running sum reaches the draw; the last one if none does. -/
def selectBranch (probabilities : List Float) (draw : Float) : Option Nat :=
  scan probabilities 0 0
where
  scan : List Float → Nat → Float → Option Nat
    | [], _, _ => none
    | [_], index, _ => some index
    | p :: rest, index, sum =>
      if draw ≤ sum + p then some index else scan rest (index + 1) (sum + p)

structure Evaluator (α : Type) where
  program : Program
  operations : Registry α
  entryId : String
  seed : String

namespace Evaluator

open Evaluation

variable {α : Type} (ev : Evaluator α)

def identity : String := ev.entryId ++ ev.seed

def call (node : Transformation) (identifier : String) (operation : Operation α)
    (parameters : List Payload) (scope : Scope α) : Call α where
  identifier := identifier
  node := node
  identity := ev.identity
  this := if operation.receivesThis then some scope.value.payload else none
  queue := if operation.receivesQueue then some scope.queue else none
  parameters := parameters

def invoke (node : Transformation) (identifier : String) (parameters : List Payload) :
    Evaluation α Step := do
  let operation ← orFail (.unknownOperation node.astId identifier) (ev.operations.get? identifier)
  let scope ← get
  let (outcome, queue) := operation.execute (ev.call node identifier operation parameters scope)
  modify fun scope => { scope with queue := queue.getD scope.queue }
  lift outcome

def missingBranch (node : Transformation) (index : Nat) : EvalError :=
  .invalidProgram node.astId (node.typeName ++ " has no branch " ++ toString index)

/-- Evaluates one node. Only `setVariable` changes the value; every other change is left to
the step. -/
def step (resolve : Transformation → Evaluation α Payload) (node : Transformation) :
    Evaluation α Step := do
  match node with
  | .sequential _ children => return .andThen children
  | .parallel _ children => return .parallel children
  | .operation _ identifier children =>
    ev.invoke node identifier (← children.mapM resolve)
  | .precomputed _ identifier parameters => ev.invoke node identifier parameters
  | .literal _ payload => return .replace payload
  | .this _ => return .pass
  | .reference astId description noun =>
    let found ← orFail (.unknownNoun astId description noun) (ev.program.noun? description noun)
    return .andThen [found.transformation]
  | .unary astId operator child =>
    return .replace (← lift (operator.apply astId (← resolve child)))
  | .binary astId operator left right =>
    let left ← resolve left
    let right ← resolve right
    return .replace (← lift (operator.apply astId left right))
  | .ifElse _ condition whenTrue whenFalse =>
    return .andThen [if (← resolve condition).isTruthy then whenTrue else whenFalse]
  | .switch astId cases children =>
    let selector ← orFail (.invalidProgram astId "switch without a selector") children.head?
    let selected ← resolve selector
    let index ← orFail (.noCaseMatched astId selected.display)
      (cases.findIdx? fun row => row.any (· == selected))
    let branch ← orFail (missingBranch node index) children[index + 1]?
    return .andThen [branch]
  | .stochasticSwitch astId probabilities children =>
    let index ← orFail (.invalidProgram astId "stochastic switch without probabilities")
      (selectBranch probabilities (Draw.draw ev.identity))
    let branch ← orFail (missingBranch node index) children[index]?
    record (.chose node (← value) index)
    return .andThen [branch]
  | .getVariable astId name =>
    return .replace (← orFail (.unknownVariable astId name) ((← value).get? name))
  | .setVariable _ name expression =>
    let payload ← resolve expression
    let v ← value
    setValue { v with vars := v.vars.insert name payload }
    return .pass

/-- Evaluates a node and everything it pushes, in place. A split has no place here. -/
def evaluate : Nat → Transformation → Evaluation α Unit
  | 0, _ => throw .outOfFuel
  | fuel + 1, node => do
    match ← ev.step (fun nested => scratch (evaluate fuel nested)) node with
    | .proceed payload push =>
      let v ← value
      setValue { v with payload := payload.getD v.payload }
      push.forM (evaluate fuel)
    | .fork .. | .parallel .. => fail (.forkInSynchronousEvaluation node.astId)

def resolve (fuel : Nat) (node : Transformation) : Evaluation α Payload :=
  scratch (ev.evaluate fuel node)

end Evaluator
end ProceduralScene
