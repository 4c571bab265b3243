import ProceduralScene.Json.Basic
import ProceduralScene.Decimal.Layout

/-! Points in space and the two measures taken on them: the distance between two points, and
a point part of the way from one to another. -/
namespace ProceduralScene

structure Point where
  x : Float := 0
  y : Float := 0
  z : Float := 0
  deriving BEq, Inhabited

namespace Point

def squaredDistance (a b : Point) : Float :=
  (a.x - b.x) * (a.x - b.x) + (a.y - b.y) * (a.y - b.y) + (a.z - b.z) * (a.z - b.z)

/-- Zero whenever the squared distance is, whatever its sign. -/
def distance (a b : Point) : Float :=
  let squared := squaredDistance a b
  if squared == 0 then 0 else squared.sqrt

def lerp (a b : Point) (fraction : Float) : Point :=
  ⟨a.x + (b.x - a.x) * fraction, a.y + (b.y - a.y) * fraction, a.z + (b.z - a.z) * fraction⟩

def display (p : Point) : String :=
  let text := Decimal.Layout.message.text
  "(" ++ text p.x ++ ", " ++ text p.y ++ ", " ++ text p.z ++ ")"

def toJson (p : Point) : Json :=
  .obj [("x", .float p.x), ("y", .float p.y), ("z", .float p.z)]

def ofJson (json : Json) : Option Point :=
  match json.members ["x", "y", "z"] with
  | some [some x, some y, some z] => do
    return { x := ← x.number?, y := ← y.number?, z := ← z.number? }
  | _ => none

end Point
end ProceduralScene
