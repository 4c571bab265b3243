import ProceduralScene.Evaluation.Registry

/-! Operations that lay pathways, point by point. -/
namespace ProceduralScene.Paving

variable {α : Type}

def point (call : Call α) : Except EvalError PathwayPoint :=
  return ⟨← call.number 0, ← call.number 1, ← call.number 2, call.astId⟩

def pathwayFrom (call : Call α) : Except EvalError Step := do
  let p ← call.pathway
  return .replace (.pathway { p with points := [← point call] })

def pathwayTo (call : Call α) : Except EvalError Step := do
  let p ← call.pathway
  return .replace (.pathway { p with points := p.points ++ [← point call] })

end ProceduralScene.Paving
