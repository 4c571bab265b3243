import ProceduralScene.Scene.Movement
import ProceduralScene.Scene.Network

/-! Operations that look at other entries. What they need may not be there yet; they then
wait a short delay and run again. They read the queue and change nothing in it but the cache. -/
namespace ProceduralScene.Surroundings

open Movement

variable {α : Type}

def timeStep : Float := 0.1

def followDelay : Float := 0.01

/-- The keyframes of a followed motion from a time on, moved and delayed. -/
def replay (offset : Point) (last : Keyframe) (astId : String) (keyframes : Array Keyframe) :
    Array Keyframe :=
  (keyframes.filter fun k => k.time ≥ last.time).map fun k =>
    { x := k.x + offset.x
      y := k.y + offset.y
      z := k.z + offset.z
      time := k.time + followDelay
      astId := astId
      speed := last.speed }

/-- Appends copied keyframes; a follower that has not moved yet starts with them. -/
def takeOver (m : Motion) (last : Keyframe) (copied : Array Keyframe) : Motion :=
  if !copied.isEmpty && last.time == 0 then { m with keyframes := copied }
  else { m with keyframes := m.keyframes ++ copied }

/-- `follow(id[, dx, dy, dz])` replays another motion until that one has finished. -/
def follow (retryDelay : Float) (call : Call α) : Except EvalError Step := do
  let m ← call.motion
  let id ← call.text 0
  let offset : Point := ⟨← call.numberOr 1 0, ← call.numberOr 2 0, ← call.numberOr 3 0⟩
  let last ← lastKeyframe call m
  let queue ← call.theQueue
  match queue.find? id with
  | some (⟨_, ⟨.motion target, _⟩, _, _⟩, whereabouts) =>
    let copied := replay offset last call.astId target.keyframes
    let moved := takeOver m last copied
    if whereabouts = .finished then return .replace (.motion moved)
    else if !copied.isEmpty then return .replaceThen (.motion moved) [call.node]
    else return retry call moved retryDelay
  | _ => return retry call m retryDelay

def placed (call : Call α) (m : Motion) (last : Keyframe) (points : List Point) : List Payload :=
  points.map fun p =>
    .motion { m with keyframes := #[⟨p.x, p.y, p.z, last.time, call.astId, last.speed⟩] }

def spawnFrom (retryDelay : Float) (call : Call α) (m : Motion) (amount : Nat) :
    Option Network → Except EvalError Step
  | none => .ok (retry call m retryDelay)
  | some network => do
    let last ← lastKeyframe call m
    return .fork (placed call m last (network.sample call.identity amount)) []

/-- `spawnOn([kind, amount])` splits into motions placed on a network. -/
def spawnOn [Holds α Network] (retryDelay : Float) (call : Call α) :
    Except EvalError Step × Option (Queue α) :=
  let prepared : Except EvalError (Motion × String × Nat × Queue α) := do
    let m ← call.motion
    let kind ← call.textOr 0 "street"
    let amount ← fissionCount call 1 (← call.numberOr 1 1)
    return (m, kind, amount, ← call.theQueue)
  match prepared with
  | .error error => (.error error, call.queue)
  | .ok (m, kind, amount, queue) =>
    let (reading, queue) := Network.cached queue kind
    (spawnFrom retryDelay call m amount reading.artifact, some queue)

/-- The key of a drawn point: repeated calls of a motion move on with its time. -/
def pointKey (call : Call α) : String :=
  let time := match call.this with
    | some (.motion m) => Decimal.Layout.message.text m.currentTime
    | _ => ""
  call.identity ++ call.astId ++ time

/-- `randomPointOn(kind)` is a point on a network, or nil as long as there is none. -/
def randomPointOn [Holds α Network] (call : Call α) :
    Except EvalError Step × Option (Queue α) :=
  let prepared : Except EvalError (String × Queue α) := do
    let kind ← call.text 0
    return (kind, ← call.theQueue)
  match prepared with
  | .error error => (.error error, call.queue)
  | .ok (kind, queue) =>
    let (reading, queue) := Network.cached queue kind
    let point := reading.artifact.bind fun network => (network.sample (pointKey call) 1).head?
    (.ok (.replace ((point.map Payload.point).getD .nil)), some queue)

def blocked (queue : Queue α) (radius time : Float) (place : Point) : Bool :=
  let collides (entry : Entry) : Bool :=
    entry.payload.motion?.any fun other =>
      (other.positionAt time (timeStep + 0.001)).any fun at_ =>
        at_.distance place < other.radius + radius
  queue.slots.any (fun slot => collides slot.entry) || queue.results.any collides

/-- `moveToAndDodge(x, y, z)` takes one time step towards the target, or stands still for it
where it would collide. -/
def moveToAndDodge (call : Call α) : Except EvalError Step := do
  let m ← call.motion
  let target ← threeNumbers call
  let last ← lastKeyframe call m
  if last.speed ≤ 0 then
    throw (.invalidProgram call.astId ("moveToAndDodge needs a positive speed, got "
      ++ Decimal.Layout.message.text last.speed))
  let start := last.position
  let distance := start.distance target
  let step := Binary64.lesser (timeStep * last.speed) distance
  let time := last.time + step / last.speed
  let candidate := if distance == 0 then start else start.lerp target (step / distance)
  let queue ← call.theQueue
  let place := if blocked queue m.radius time candidate then start else candidate
  let moved := Payload.motion (arrive m last place time call.astId)
  if distance ≤ step then return .replace moved
  else
    return .replaceThen moved [.precomputed call.astId "moveToAndDodge"
      [.number target.x, .number target.y, .number target.z]]

end ProceduralScene.Surroundings
