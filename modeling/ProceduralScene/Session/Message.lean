import ProceduralScene.Program.Basic
import ProceduralScene.Scene.Basic
import ProceduralScene.Sha256
import ProceduralScene.Json.Writer

/-! What a host says to a session, and what it hears: control messages in, emissions out. -/
namespace ProceduralScene

inductive ControlMessage where
  | interprete (program : Program) (requestedProgress : Progress)
  | updateRequestedProgress (requestedProgress : Progress)
  | cancel

namespace ControlMessage

def toJson : ControlMessage → Json
  | interprete program requested =>
    .obj [("type", .str "interprete"), ("descriptions", Program.toJson program),
      ("requestedProgress", .float requested.value)]
  | updateRequestedProgress requested =>
    .obj [("type", .str "updateRequestedProgress"), ("requestedProgress", .float requested.value)]
  | cancel => .obj [("type", .str "cancel")]

def ofTagged (type : String) (rest : Json) : Option ControlMessage :=
  match type with
  | "interprete" =>
    match rest.members ["descriptions", "requestedProgress"] with
    | some [some program, some requested] => do
      return interprete (← Program.ofJson program) (.ofFloat (← requested.number?))
    | _ => none
  | "updateRequestedProgress" =>
    match rest.members ["requestedProgress"] with
    | some [some requested] => do return updateRequestedProgress (.ofFloat (← requested.number?))
    | _ => none
  | "cancel" =>
    match rest with
    | .arr (_ :: _) => none
    | _ => some cancel
  | _ => none

/-- An object with a `type`, or an array that starts with it. Ignored fields must be sound
too. -/
def ofJson (json : Json) : Option ControlMessage :=
  if json.isSound then
    match json with
    | .obj fields =>
      match Json.field fields "type" with
      | some (some (.str type)) => ofTagged type (.obj fields)
      | _ => none
    | .arr (.str type :: rest) => ofTagged type (.arr rest)
    | _ => none
  else none

end ControlMessage

structure Emission where
  result : Json
  isFinal : Bool

namespace Emission

def ofReport (report : Report Snapshot) : Emission :=
  ⟨report.published.toJson.sorted, report.isFinal⟩

def digest (e : Emission) : String := Sha256.digest e.result.compact

def toJson (e : Emission) : Json := .obj [("result", e.result), ("isFinal", .bool e.isFinal)]

end Emission
end ProceduralScene
