import ProceduralScene.Evaluation.Registry

/-! Operations on the current motion alone. Each appends keyframes or changes the last one;
`clone` splits. Parameters are checked in the order in which an operation reads them. -/
namespace ProceduralScene

def maxFission : Nat := 4096

namespace Movement

variable {α : Type}

def lastKeyframe (call : Call α) (m : Motion) : Except EvalError Keyframe :=
  match m.last? with
  | some last => .ok last
  | none =>
    .error (.invalidProgram call.astId
      (EvalError.quoted call.identifier ++ " on a motion entity without keyframes"))

/-- No time passes over no distance, whatever the speed. -/
def travelTime (distance speed : Float) : Float :=
  if distance == 0 then 0 else distance / speed

def retry (call : Call α) (m : Motion) (delay : Float) : Step :=
  .replaceThen (.motion m)
    [.precomputed call.astId "wait" [.number delay], call.node]

def arrive (m : Motion) (last : Keyframe) (at_ : Point) (time : Float) (astId : String) : Motion :=
  { m with keyframes := m.keyframes.push ⟨at_.x, at_.y, at_.z, time, astId, last.speed⟩ }

def replaceLast (m : Motion) (last : Keyframe) : Motion :=
  { m with keyframes := m.keyframes.pop.push last }

def fissionCount (call : Call α) (index : Nat) (amount : Float) : Except EvalError Nat :=
  if 0 ≤ amount ∧ amount ≤ maxFission.toFloat ∧ Binary64.isIntegral amount then
    .ok (Binary64.truncate amount).toNat
  else
    .error (call.parameterError index ("expected a count between 0 and " ++ toString maxFission
      ++ ", got " ++ Decimal.Layout.message.text amount))

def threeNumbers (call : Call α) : Except EvalError Point :=
  return ⟨← call.number 0, ← call.number 1, ← call.number 2⟩

/-- `moveTo(x, y, z[, duration])` or `moveTo(point[, duration])`. A target that is nil is not
known yet. -/
def moveTo (retryDelay : Float) (call : Call α) : Except EvalError Step := do
  let m ← call.motion
  let go (target : Point) (duration : Option Float) : Except EvalError Step := do
    let last ← lastKeyframe call m
    let duration := duration.getD (travelTime (last.position.distance target) last.speed)
    return .replace (.motion (arrive m last target (last.time + duration) call.astId))
  match call.parameters.head? with
  | some (.point target) => go target (← call.optionalNumber 1)
  | some (.number _) =>
    let target ← threeNumbers call
    go target (← call.optionalNumber 3)
  | none | some .nil => return retry call m retryDelay
  | some other =>
    throw (call.parameterError 0 ("expected number or point, got " ++ other.typeName))

def moveBy (call : Call α) : Except EvalError Step := do
  let m ← call.motion
  let delta ← threeNumbers call
  let last ← lastKeyframe call m
  let from_ := last.position
  let target : Point := ⟨from_.x + delta.x, from_.y + delta.y, from_.z + delta.z⟩
  let duration := travelTime (from_.distance target) last.speed
  return .replace (.motion (arrive m last target (last.time + duration) call.astId))

def wait (call : Call α) : Except EvalError Step := do
  let m ← call.motion
  let duration ← call.number 0
  let last ← lastKeyframe call m
  return .replace (.motion (arrive m last last.position (last.time + duration) call.astId))

/-- `later(delay)` moves the last keyframe in time. -/
def later (call : Call α) : Except EvalError Step := do
  let m ← call.motion
  let delay ← call.number 0
  let last ← lastKeyframe call m
  return .replace (.motion (replaceLast m { last with time := last.time + delay }))

def speed (call : Call α) : Except EvalError Step := do
  let m ← call.motion
  let speed ← call.number 0
  let last ← lastKeyframe call m
  return .replace (.motion (replaceLast m { last with speed }))

def clone (call : Call α) : Except EvalError Step := do
  let m ← call.motion
  let amount ← fissionCount call 0 (← call.number 0)
  return .fork (List.replicate amount (.motion m)) []

end Movement
end ProceduralScene
