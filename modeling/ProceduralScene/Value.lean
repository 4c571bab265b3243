import ProceduralScene.Payload.Basic
import ProceduralScene.Sorted

/-! What an entry computes with: its payload and its variables. -/
namespace ProceduralScene

abbrev Variables := Sorted Payload

namespace Variables

def number (vars : Variables) (name : String) : Float :=
  ((vars.get? name).bind Payload.number?).getD 0

def toJson (vars : Variables) : Json :=
  .obj (vars.entries.map fun entry => (entry.1, entry.2.toJson))

/-- Of two entries of one name the last one counts, yet both must be payloads. -/
def ofJson (json : Json) : Option Variables := do
  let fields ← json.fields?
  let entries ← fields.mapM fun field => do return (field.1, ← Payload.ofJson field.2)
  return Sorted.ofList entries

def equalEntries : List (String × Payload) → List (String × Payload) → Bool
  | [], [] => true
  | a :: as, b :: bs => a.1 == b.1 && a.2 == b.2 && equalEntries as bs
  | _, _ => false

end Variables

structure Value where
  payload : Payload
  vars : Variables
  deriving Inhabited

namespace Value

def indexVariable : String := "index"

/-- A copy with another payload that knows its ordinal. -/
def branch (v : Value) (payload : Payload) (ordinal : Nat) : Value :=
  ⟨payload, v.vars.insert indexVariable (.number ordinal.toFloat)⟩

def get? (v : Value) (name : String) : Option Payload := v.vars.get? name

instance : BEq Value where
  beq a b := a.payload == b.payload
    && Variables.equalEntries a.vars.entries b.vars.entries

end Value
end ProceduralScene
