import ProceduralScene.Draw
import ProceduralScene.Queue.Artifact

/-! The network of all finished pathways of one kind, flattened into sized segments. Points
on it are drawn by length: a draw picks the first segment at which the running length reaches
its share of the total. -/
namespace ProceduralScene

structure Segment where
  start : Point
  stop : Point
  width : Float
  deriving BEq, Inhabited

namespace Segment

def length (s : Segment) : Float := s.start.distance s.stop

/-- The point at a fraction `along` the centre line, moved sideways by a fraction `across` of
the width. A segment without length is widened in the direction of `x`. -/
def pointAt (s : Segment) (along across : Float) : Point :=
  let centre := s.start.lerp s.stop along
  let offset := across * s.width
  let length := s.length
  if length == 0 then { centre with x := centre.x + offset }
  else
    let normalX := -(s.stop.y - s.start.y) / length
    let normalY := (s.stop.x - s.start.x) / length
    { centre with x := centre.x + normalX * offset, y := centre.y + normalY * offset }

def toJson (s : Segment) : Json :=
  .obj [("start", s.start.toJson), ("end", s.stop.toJson), ("width", .float s.width)]

end Segment

/-- One segment per pair of neighbours; a single point is a segment without length. -/
def Pathway.segments (p : Pathway) : List Segment :=
  match p.points with
  | [only] => [⟨only.position, only.position, only.size⟩]
  | points => points.zipWith
      (fun a b => ⟨a.position, b.position, (a.size + b.size) / 2⟩) points.tail

structure Network where
  kind : String
  segments : List Segment
  totalLength : Float
  inhabited : segments ≠ []

namespace Network

def cacheKey (kind : String) : String := "pathway/" ++ kind

def isSource (kind : String) (entry : Entry) : Bool :=
  entry.payload.pathway?.any (·.kind == kind)

def segmentsOf (kind : String) (entries : List Entry) : List Segment :=
  (entries.filterMap (·.payload.pathway?)).flatMap fun pathway =>
    if pathway.kind == kind then pathway.segments else []

/-- None as long as no pathway of the kind has a point. -/
def build (kind : String) (entries : List Entry) : Option Network :=
  let segments := segmentsOf kind entries
  if inhabited : segments ≠ [] then
    some ⟨kind, segments, (segments.map Segment.length).foldl (· + ·) 0, inhabited⟩
  else none

def cached {α : Type} [Holds α Network] (queue : Queue α) (kind : String) :
    Reading Network × Queue α :=
  queue.cached (cacheKey kind) (isSource kind) (build kind)

/-- The first segment at which the running length reaches the target, or the last one. -/
def reach (target covered : Float) (segment : Segment) : List Segment → Segment
  | [] => segment
  | next :: rest =>
    if target ≤ covered + segment.length then segment
    else reach target (covered + segment.length) next rest

/-- A network without length is drawn from evenly. -/
def pick (n : Network) (draw : Float) : Segment :=
  if n.totalLength ≤ 0 then
    let last := n.segments.length - 1
    let index := Binary64.truncateNat last (draw * n.segments.length.toFloat)
    (n.segments[index]?).getD (n.segments.getLast n.inhabited)
  else
    match n.segments, n.inhabited with
    | first :: rest, _ => reach (draw * n.totalLength) 0 first rest

/-- The point drawn for a key: one draw for the segment and one for each direction. -/
def point (n : Network) (key : String) : Point :=
  let draw (seed : UInt32) := Draw.unit (Draw.hash53 seed key)
  (n.pick (draw 1)).pointAt (draw 2) (draw 3 - 0.5)

def sample (n : Network) (key : String) (amount : Nat) : List Point :=
  (List.range amount).map fun index => n.point (key ++ toString index)

def toJson (n : Network) : Json :=
  .obj [("type", .str n.kind), ("segments", .arr (n.segments.map Segment.toJson)),
    ("totalLength", .float n.totalLength)]

end Network
end ProceduralScene
