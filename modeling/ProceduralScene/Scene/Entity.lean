import ProceduralScene.Evaluation.Error
import ProceduralScene.Value

/-! New entities. A root entry starts as a motion or as a pathway, placed by its variables. -/
namespace ProceduralScene

structure EntityDefaults where
  url : Option String
  radius : Float
  speed : Float

def entityDefaults : String → Option EntityDefaults
  | "pedestrian" => some ⟨some "models/human", 1, 1.5⟩
  | "car" => some ⟨some "models/car", 2.5, 17⟩
  | "bus" => some ⟨some "models/bus", 3, 14⟩
  | "train" => some ⟨some "models/train", 3, 17⟩
  | "cyclist" => some ⟨some "models/cyclist", 1.5, 4⟩
  | "camera" => some ⟨none, 0, 5⟩
  | _ => none

def Motion.create (kind : String) (vars : Variables) (astId : String) :
    Except EvalError Motion :=
  match entityDefaults kind with
  | none => .error (.unknownEntityType kind)
  | some defaults => .ok {
      keyframes := #[{
        x := vars.number "x"
        y := vars.number "y"
        z := vars.number "z"
        time := vars.number "time"
        astId := astId
        speed := defaults.speed }]
      url := defaults.url
      radius := defaults.radius
      kind := kind }

def Pathway.create (kind : String) (vars : Variables) (astId : String) : Pathway where
  points := [⟨vars.number "x", vars.number "y", vars.number "size", astId⟩]
  kind := kind

/-- The kind comes from the `type` variable and is `pedestrian` without one. -/
def Payload.create (vars : Variables) (astId : String) : Except EvalError Payload := do
  let kind ← match vars.get? "type" with
    | none | some .nil => pure "pedestrian"
    | some (.text kind) => pure kind
    | some other => throw (.unknownEntityType other.display)
  if kind = "street" ∨ kind = "footwalk" then return .pathway (Pathway.create kind vars astId)
  else return .motion (← Motion.create kind vars astId)

end ProceduralScene
