import ProceduralScene.Session.Config
import ProceduralScene.Session.Message

/-! A session holds an interpreter and the token of its next slice. The host sends messages
and asks for the next slice whenever it is ready for one. -/
namespace ProceduralScene

structure Session where
  interpreter : Interpreter Network Snapshot
  pending : Option Token := none

namespace Session

/-- An answer has no emission when there was nothing to run. -/
abbrev Answer := Except Fault (Option Emission) × Session

def scene (config : HostConfig) (clock : Clock) : Session where
  interpreter := { Interpreter.scene config.scene config.engine with clock }

def isIdle (s : Session) : Bool := s.pending.isNone

def accept (s : Session) : Interpreter.Outcome Network Snapshot → Answer
  | (.ok report, interpreter) =>
    (.ok (some (.ofReport report)), { s with interpreter, pending := report.token })
  | (.error fault, interpreter) => (.error fault, { s with interpreter })

def handle (fuel : Nat) (s : Session) : ControlMessage → Answer
  | .interprete program requested => s.accept (s.interpreter.begin fuel program requested)
  | .updateRequestedProgress requested =>
    { s with pending := none }.accept (s.interpreter.requestProgress fuel requested)
  | .cancel => (.ok none, { s with interpreter := s.interpreter.cancel.2, pending := none })

def poll (fuel : Nat) (s : Session) : Answer :=
  match s.pending with
  | none => (.ok none, s)
  | some token => { s with pending := none }.accept (s.interpreter.resume fuel token)

def stream (depth : Nat) : Nat → Answer → List Emission × Except Fault Unit × Session
  | 0, (_, s) => ([], .error .outOfFuel, s)
  | _, (.error fault, s) => ([], .error fault, s)
  | _, (.ok none, s) => ([], .ok (), s)
  | fuel + 1, (.ok (some emission), s) =>
    let (emissions, ending, s) := stream depth fuel (s.poll depth)
    (emission :: emissions, ending, s)

/-- Handles a message and polls until the session is idle. An error discards the emissions. -/
def drain (fuel : Nat) (s : Session) (message : ControlMessage) :
    Except Fault (List Emission) × Session :=
  let (emissions, ending, s) := stream fuel fuel (s.handle fuel message)
  (ending.map fun _ => emissions, s)

end Session
end ProceduralScene
