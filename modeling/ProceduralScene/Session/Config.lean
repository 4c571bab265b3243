import ProceduralScene.Interpreter.Config
import ProceduralScene.Scene.Config

/-! The settings of a host: those of the engine and those of the scene. -/
namespace ProceduralScene

structure HostConfig where
  engine : EngineConfig := {}
  scene : SceneConfig := {}
  deriving BEq, Inhabited

namespace HostConfig

def fields : List (Settings.Field HostConfig) := [
  ("engine", fun c value => return { c with engine := ← EngineConfig.ofJson value }),
  ("scene", fun c value => return { c with scene := ← SceneConfig.ofJson value })]

def ofJson (json : Json) : Except SettingsError HostConfig := Settings.ofJson fields {} json

def toJson (c : HostConfig) : Json :=
  .obj [("engine", c.engine.toJson), ("scene", c.scene.toJson)]

end HostConfig
end ProceduralScene
