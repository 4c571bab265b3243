import ProceduralScene.Json.Settings

/-! The scene's settings, in seconds of the simulation. A retry delay is positive, so that an
entity that waits for something keeps advancing. -/
namespace ProceduralScene

structure SceneConfig where
  sliceProgress : Float := 3
  retryDelay : Float := 0.01
  deriving BEq, Inhabited

namespace SceneConfig

def positiveSeconds (json : Json) : Except SettingsError Float := do
  let seconds ← Settings.required json.number?
  if seconds > 0 then return seconds else throw (.notPositive seconds)

def fields : List (Settings.Field SceneConfig) := [
  ("sliceProgress", fun c value =>
    return { c with sliceProgress := ← Settings.required value.number? }),
  ("retryDelay", fun c value => return { c with retryDelay := ← positiveSeconds value })]

def ofJson (json : Json) : Except SettingsError SceneConfig := Settings.ofJson fields {} json

def toJson (c : SceneConfig) : Json :=
  .obj [("sliceProgress", .float c.sliceProgress), ("retryDelay", .float c.retryDelay)]

end SceneConfig
end ProceduralScene
