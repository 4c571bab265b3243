import ProceduralScene.Interpreter.Basic
import ProceduralScene.Interpreter.Config
import ProceduralScene.Scene.Config
import ProceduralScene.Scene.Entity
import ProceduralScene.Scene.Paving
import ProceduralScene.Scene.Surroundings

/-! The scene: streets and footwalks, and the agents that move on them. Time is the progress
of a motion; pathways do not advance. -/
namespace ProceduralScene

structure Agent where
  id : String
  motion : Motion

structure Snapshot where
  street : Option Network
  footwalk : Option Network
  agents : List Agent

namespace Agent

def ofEntry? (entry : Entry) : Option Agent :=
  entry.payload.motion?.map fun motion => ⟨entry.id, motion⟩

def toJson (a : Agent) : Json :=
  match a.motion.toJson with
  | .obj fields => .obj (("id", .str a.id) :: fields)
  | other => other

end Agent

namespace Snapshot

def toJson (s : Snapshot) : Json :=
  .obj (s.street.toList.map (fun n => ("street", n.toJson))
    ++ s.footwalk.toList.map (fun n => ("footwalk", n.toJson))
    ++ [("agents", .arr (s.agents.map Agent.toJson))])

end Snapshot

namespace Scene

def motionOperations (retryDelay : Float) : Registry Network := .ofList [
  ("moveTo", (Operation.ofStep (Movement.moveTo retryDelay)).withThis),
  ("moveBy", (Operation.ofStep Movement.moveBy).withThis),
  ("wait", (Operation.ofStep Movement.wait).withThis),
  ("later", (Operation.ofStep Movement.later).withThis),
  ("speed", (Operation.ofStep Movement.speed).withThis),
  ("clone", (Operation.ofStep Movement.clone).withThis),
  ("follow", (Operation.ofStep (Surroundings.follow retryDelay)).withThis.withQueue),
  ("spawnOn", {
    execute := Surroundings.spawnOn retryDelay, receivesThis := true, receivesQueue := true }),
  ("moveToAndDodge", (Operation.ofStep Surroundings.moveToAndDodge).withThis.withQueue),
  ("randomPointOn", {
    execute := Surroundings.randomPointOn, receivesThis := true, receivesQueue := true })]

def pathwayOperations : Registry Network := .ofList [
  ("pathwayFrom", (Operation.ofStep Paving.pathwayFrom).withThis),
  ("pathwayTo", (Operation.ofStep Paving.pathwayTo).withThis)]

def operations (config : SceneConfig) : Registry Network :=
  (motionOperations config.retryDelay).merge pathwayOperations

def progress (payload : Payload) : Progress :=
  match payload with
  | .motion m => .ofFloat m.currentTime
  | _ => .static

def interrupts (config : SceneConfig) (start current : Progress) : Bool :=
  current.value - start.value > config.sliceProgress

def publish (queue : Queue Network) : Snapshot × Queue Network :=
  let (street, queue) := Network.cached queue "street"
  let (footwalk, queue) := Network.cached queue "footwalk"
  (⟨street.artifact, footwalk.artifact, queue.entries.filterMap Agent.ofEntry?⟩, queue)

def domain (config : SceneConfig) : Domain Network Snapshot where
  createValue := Payload.create
  progress := progress
  interrupts := interrupts config
  publish := publish

def engine (config : SceneConfig) (engine : EngineConfig) : Engine Network Snapshot where
  domain := domain config
  operations := operations config
  budget := engine.computeDurationMs

end Scene

def Interpreter.scene (scene : SceneConfig) (engine : EngineConfig) :
    Interpreter Network Snapshot where
  engine := Scene.engine scene engine

end ProceduralScene
