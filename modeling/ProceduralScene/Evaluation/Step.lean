import ProceduralScene.Queue.Entry

/-! The outcome of evaluating one node. A step says what should happen and does nothing: the
scheduler applies it to the queue, nested evaluation applies it in place. -/
namespace ProceduralScene

/-- A payload that is given replaces the own one. What is pushed runs before the remaining nodes,
in each part of a split. -/
inductive Step where
  | proceed (payload : Option Payload) (push : List Transformation)
  | fork (payloads : List Payload) (push : List Transformation)
  | parallel (children : List Transformation)
  deriving Inhabited

namespace Step

def pass : Step := proceed none []

def replace (payload : Payload) : Step := proceed (some payload) []

def andThen (push : List Transformation) : Step := proceed none push

def replaceThen (payload : Payload) (push : List Transformation) : Step :=
  proceed (some payload) push

/-- The entries that take the place of the evaluated one, whose node is already off its
pending list. -/
def successors (entry : Entry) : Step → List Entry
  | proceed payload push =>
    let value := { entry.value with payload := payload.getD entry.payload }
    [{ entry with value }.prepend push]
  | fork payloads push =>
    payloads.mapIdx fun ordinal payload => (entry.branch ordinal payload).prepend push
  | parallel children =>
    children.mapIdx fun ordinal child => (entry.branch ordinal entry.payload).prepend [child]

end Step
end ProceduralScene
