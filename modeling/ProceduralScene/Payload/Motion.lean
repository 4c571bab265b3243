import ProceduralScene.Payload.Point

/-! Animated entities. A motion is a list of keyframes in the order of time; where it is in
between is interpolated, on the segment found by searching backwards from the last one. -/
namespace ProceduralScene

/-- A position at a time, with the node that wrote it and the speed from there on. -/
structure Keyframe where
  x : Float
  y : Float
  z : Float
  time : Float
  astId : String
  speed : Float
  deriving BEq, Inhabited

namespace Keyframe

def position (k : Keyframe) : Point := ⟨k.x, k.y, k.z⟩

def toJson (k : Keyframe) : Json :=
  .obj [("x", .float k.x), ("y", .float k.y), ("z", .float k.z), ("t", .float k.time),
    ("astId", .str k.astId), ("speed", .float k.speed)]

def ofJson (json : Json) : Option Keyframe :=
  match json.members ["x", "y", "z", "t", "astId", "speed"] with
  | some [some x, some y, some z, some time, some astId, some speed] => do
    return {
      x := ← x.number?
      y := ← y.number?
      z := ← z.number?
      time := ← time.number?
      astId := ← astId.string?
      speed := ← speed.number? }
  | _ => none

end Keyframe

structure Motion where
  keyframes : Array Keyframe
  url : Option String
  radius : Float
  kind : String
  deriving BEq, Inhabited

namespace Motion

def last? (m : Motion) : Option Keyframe := m.keyframes.back?

def currentTime (m : Motion) : Float := (m.last?.map (·.time)).getD 0

/-- The last keyframe up to `i` that is not after `time`, or the first. -/
def segmentStart (keyframes : Array Keyframe) (time : Float) :
    (i : Nat) → i < keyframes.size → Nat
  | 0, _ => 0
  | i + 1, h =>
    if keyframes[i + 1].time > time then segmentStart keyframes time i (by omega) else i + 1

theorem segmentStart_le (keyframes : Array Keyframe) (time : Float) (i : Nat)
    (h : i < keyframes.size) : segmentStart keyframes time i h ≤ i := by
  induction i with
  | zero => simp [segmentStart]
  | succ i ih =>
    simp only [segmentStart]
    split
    · exact Nat.le_succ_of_le (ih _)
    · exact Nat.le_refl _

/-- The point between two keyframes at `time`; a segment without duration is at its end. -/
def between (start stop : Keyframe) (time : Float) : Point :=
  let span := stop.time - start.time
  let fraction := if span == 0 then 1 else (time - start.time) / span
  start.position.lerp stop.position fraction

/-- The position at a time, if the segment found for it reaches that time. The tolerance
widens the segment at both ends. -/
def positionAt (m : Motion) (time tolerance : Float) : Option Point :=
  if many : 2 ≤ m.keyframes.size then
    let i := segmentStart m.keyframes time (m.keyframes.size - 2) (by omega)
    have inside : i + 1 < m.keyframes.size := by
      have := segmentStart_le m.keyframes time (m.keyframes.size - 2) (by omega)
      omega
    let start := m.keyframes[i]
    let stop := m.keyframes[i + 1]
    if start.time ≤ time + tolerance ∧ time - tolerance ≤ stop.time then
      some (between start stop time)
    else none
  else
    match m.keyframes[0]? with
    | none => none
    | some only => if (only.time - time).abs > tolerance then none else some only.position

def toJson (m : Motion) : Json :=
  .obj ([("keyframes", .arr (m.keyframes.toList.map Keyframe.toJson))]
    ++ m.url.toList.map (fun url => ("url", .str url))
    ++ [("radius", .float m.radius), ("type", .str m.kind)])

def ofJson (json : Json) : Option Motion :=
  match json.members ["keyframes", "url", "radius", "type"] with
  | some [some keyframes, url, some radius, some kind] => do
    return {
      keyframes := (← (← keyframes.items?).mapM Keyframe.ofJson).toArray
      url := ← (url.getD .null).optionalString?
      radius := ← radius.number?
      kind := ← kind.string? }
  | _ => none

end Motion
end ProceduralScene
