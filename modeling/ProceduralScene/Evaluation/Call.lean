import ProceduralScene.Evaluation.Error
import ProceduralScene.Queue.Artifact

/-! What an operation receives, and the ways to read it. Running the calling node again repeats
the call with fresh parameters. A missing parameter and a nil one are the same. -/
namespace ProceduralScene

structure Call (α : Type) where
  identifier : String
  node : Transformation
  identity : String
  this : Option Payload
  queue : Option (Queue α)
  parameters : List Payload

namespace Call

variable {α : Type} (call : Call α)

def astId : String := call.node.astId

def parameter? (index : Nat) : Option Payload :=
  (call.parameters[index]?).filter fun payload => !payload.isNil

def parameterError (index : Nat) (message : String) : EvalError :=
  .invalidParameter call.astId call.identifier index message

def number (index : Nat) : Except EvalError Float :=
  match call.parameter? index with
  | some (.number x) => .ok x
  | some other => .error (call.parameterError index ("expected number, got " ++ other.typeName))
  | none => .error (call.parameterError index "missing number")

def optionalNumber (index : Nat) : Except EvalError (Option Float) :=
  match call.parameter? index with
  | none => .ok none
  | some _ => some <$> call.number index

def numberOr (index : Nat) (default : Float) : Except EvalError Float :=
  return (← call.optionalNumber index).getD default

def text (index : Nat) : Except EvalError String :=
  match call.parameter? index with
  | some (.text s) => .ok s
  | some (.number x) => .ok (Payload.displayNumber x)
  | some other => .error (call.parameterError index ("expected string, got " ++ other.typeName))
  | none => .error (call.parameterError index "missing string")

def textOr (index : Nat) (default : String) : Except EvalError String :=
  match call.parameter? index with
  | none => .ok default
  | some _ => call.text index

def optionalPoint (index : Nat) : Except EvalError (Option Point) :=
  match call.parameter? index with
  | none => .ok none
  | some (.point p) => .ok (some p)
  | some other => .error (call.parameterError index ("expected point, got " ++ other.typeName))

def payloadMismatch (expected : String) : EvalError :=
  .payloadMismatch call.astId call.identifier expected
    ((call.this.map Payload.typeName).getD "nothing")

def motion : Except EvalError Motion :=
  match call.this with
  | some (.motion m) => .ok m
  | _ => .error (call.payloadMismatch "motion entity")

def pathway : Except EvalError Pathway :=
  match call.this with
  | some (.pathway p) => .ok p
  | _ => .error (call.payloadMismatch "pathway")

def theQueue : Except EvalError (Queue α) :=
  match call.queue with
  | some queue => .ok queue
  | none =>
    .error (.invalidProgram call.astId
      ("operation " ++ EvalError.quoted call.identifier ++ " did not request the queue"))

end Call
end ProceduralScene
