import ProceduralScene.Json.Settings

/-! The engine's settings: the time that a slice may take. -/
namespace ProceduralScene

structure EngineConfig where
  computeDurationMs : Nat := 1000
  deriving BEq, Inhabited

namespace EngineConfig

def fields : List (Settings.Field EngineConfig) := [
  ("computeDurationMs", fun c value =>
    return { c with computeDurationMs := ← Settings.required value.word64? })]

def ofJson (json : Json) : Except SettingsError EngineConfig := Settings.ofJson fields {} json

def toJson (c : EngineConfig) : Json :=
  .obj [("computeDurationMs", .int c.computeDurationMs)]

end EngineConfig
end ProceduralScene
