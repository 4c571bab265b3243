import ProceduralScene.Payload.Point

/-! Pathways: polylines of sized points, such as streets and footwalks. -/
namespace ProceduralScene

structure PathwayPoint where
  x : Float
  y : Float
  size : Float
  astId : String
  deriving BEq, Inhabited

namespace PathwayPoint

def position (p : PathwayPoint) : Point := ⟨p.x, p.y, 0⟩

def toJson (p : PathwayPoint) : Json :=
  .obj [("x", .float p.x), ("y", .float p.y), ("size", .float p.size), ("astId", .str p.astId)]

def ofJson (json : Json) : Option PathwayPoint :=
  match json.members ["x", "y", "size", "astId"] with
  | some [some x, some y, some size, some astId] => do
    return {
      x := ← x.number?
      y := ← y.number?
      size := ← size.number?
      astId := ← astId.string? }
  | _ => none

end PathwayPoint

structure Pathway where
  points : List PathwayPoint
  kind : String
  deriving BEq, Inhabited

namespace Pathway

def toJson (p : Pathway) : Json :=
  .obj [("points", .arr (p.points.map PathwayPoint.toJson)), ("type", .str p.kind)]

def ofJson (json : Json) : Option Pathway :=
  match json.members ["points", "type"] with
  | some [some points, some kind] => do
    return {
      points := ← (← points.items?).mapM PathwayPoint.ofJson
      kind := ← kind.string? }
  | _ => none

end Pathway
end ProceduralScene
