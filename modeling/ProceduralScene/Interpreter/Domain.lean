import ProceduralScene.Evaluation.Error
import ProceduralScene.Queue.Basic

/-! What the interpreter leaves to the kind of thing a program generates: the first payload of
a root entry, how far a payload has advanced, when to publish, and what. -/
namespace ProceduralScene

/-- `α` is what the queue's cache keeps, `β` what a slice publishes. A slice that started at the
first progress that `interrupts` is given is over at the second. -/
structure Domain (α β : Type) where
  createValue : Variables → String → Except EvalError Payload
  progress : Payload → Progress
  interrupts : Progress → Progress → Bool
  publish : Queue α → β × Queue α

end ProceduralScene
