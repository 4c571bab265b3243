import ProceduralScene.Program.Transformation

/-! Nodes are read from the bottom up: every field of an object is first read as a node and as
a list of nodes, and the type of the object then says which of these readings it needs. So
the recursion follows the document, and each part of it is visited once. -/
namespace ProceduralScene.Transformation

structure Member where
  json : Json
  node : Option Transformation
  nodes : Option (List Transformation)

def typeNames : List String := [
  "sequential", "parallel", "operation", "precomputedOperation", "raw", "nounReference", "this",
  "unaryOperator", "binaryOperator", "if", "switch", "getVariable", "setVariable",
  "stochasticSwitch"]

def typeOf : Json → Option String
  | .str s => some s
  | .int n => if 0 ≤ n then typeNames[n.toNat]? else none
  | _ => none

def one (fields : List (String × Member)) (name : String) : Option Member :=
  match fields.filter (·.1 == name) with
  | [(_, member)] => some member
  | _ => none

def stringAt (fields : List (String × Member)) (name : String) : Option String := do
  (← one fields name).json.string?

def nodeAt (fields : List (String × Member)) (name : String) : Option Transformation := do
  (← one fields name).node

def nodesAt (fields : List (String × Member)) (name : String) :
    Option (List Transformation) := do
  (← one fields name).nodes

def payloads (json : Json) : Option (List Payload) := do
  Payload.decodeItems (← json.items?)

/-- The node of an object's fields. Fields that its type does not name are ignored. -/
def assemble (fields : List (String × Member)) : Option Transformation := do
  let id ← stringAt fields "astId"
  match ← typeOf (← one fields "type").json with
  | "sequential" => return sequential id (← nodesAt fields "children")
  | "parallel" => return parallel id (← nodesAt fields "children")
  | "operation" =>
    return operation id (← stringAt fields "identifier") (← nodesAt fields "children")
  | "precomputedOperation" =>
    return precomputed id (← stringAt fields "identifier")
      (← payloads (← one fields "parameters").json)
  | "raw" => return literal id (← Payload.decode (← one fields "value").json)
  | "nounReference" =>
    return reference id (← stringAt fields "descriptionIdentifier")
      (← stringAt fields "nounIdentifier")
  | "this" => return this id
  | "unaryOperator" =>
    return unary id (← UnaryOperator.ofJson true (← one fields "operator").json)
      (← nodeAt fields "child")
  | "binaryOperator" =>
    return binary id (← BinaryOperator.ofJson true (← one fields "operator").json)
      (← nodeAt fields "left") (← nodeAt fields "right")
  | "if" =>
    return ifElse id (← nodeAt fields "condition") (← nodeAt fields "then")
      (← nodeAt fields "else")
  | "switch" =>
    return switch id (← (← (← one fields "cases").json.items?).mapM payloads)
      (← nodesAt fields "children")
  | "getVariable" => return getVariable id (← stringAt fields "identifier")
  | "setVariable" =>
    return setVariable id (← stringAt fields "identifier") (← nodeAt fields "value")
  | "stochasticSwitch" =>
    return stochasticSwitch id
      (← (← (← one fields "probabilities").json.items?).mapM Json.number?)
      (← nodesAt fields "children")
  | _ => none

mutual

def decode : Json → Option Transformation
  | .obj fields => assemble (decodeFields fields)
  | _ => none

def decodeArray : Json → Option (List Transformation)
  | .arr items => decodeItems items
  | _ => none

def decodeItems : List Json → Option (List Transformation)
  | [] => some []
  | item :: rest => do return (← decode item) :: (← decodeItems rest)

def decodeFields : List (String × Json) → List (String × Member)
  | [] => []
  | (name, value) :: rest => (name, ⟨value, decode value, decodeArray value⟩) :: decodeFields rest

end

def ofJson (json : Json) : Option Transformation :=
  if json.isSound then decode json else none

end ProceduralScene.Transformation
