import ProceduralScene.Queue.Basic

/-! The world that evaluation acts on: the queue, and a trace of what was evaluated, if one
is kept. -/
namespace ProceduralScene

inductive Event where
  | before (node : Transformation) (value : Value)
  | chose (node : Transformation) (value : Value) (branch : Nat)
  | after (node : Transformation) (values : List Value)
  deriving Inhabited

structure World (α : Type) where
  queue : Queue α := .empty
  trace : Option (Array Event) := none
  deriving Inhabited

namespace World

def record (w : World α) (event : Event) : World α :=
  { w with trace := w.trace.map (·.push event) }

end World

structure Scope (α : Type) extends World α where
  value : Value

end ProceduralScene
