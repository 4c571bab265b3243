import ProceduralScene.Evaluation.Call
import ProceduralScene.Evaluation.Step

/-! The operations that programs can call, by name. Their defaults are for callers that fill in
what is missing; a call does not look at them. -/
namespace ProceduralScene

structure Operation (α : Type) where
  execute : Call α → Except EvalError Step × Option (Queue α)
  receivesThis : Bool := false
  receivesQueue : Bool := false
  defaults : List Transformation := []

namespace Operation

def ofStep (step : Call α → Except EvalError Step) : Operation α where
  execute call := (step call, call.queue)

def withThis (o : Operation α) : Operation α := { o with receivesThis := true }

def withQueue (o : Operation α) : Operation α := { o with receivesQueue := true }

end Operation

abbrev Registry (α : Type) := Sorted (Operation α)

end ProceduralScene
