import ProceduralScene.Payload.Basic
import ProceduralScene.Program.Operator

/-! The nodes of a program. Every node carries an id; generated keyframes and pathway points
name the node that wrote them. -/
namespace ProceduralScene

/-- The first child of a switch selects, and the child at `i + 1` is for `cases[i]`. -/
inductive Transformation where
  | sequential (astId : String) (children : List Transformation)
  | parallel (astId : String) (children : List Transformation)
  | operation (astId identifier : String) (children : List Transformation)
  | precomputed (astId identifier : String) (parameters : List Payload)
  | literal (astId : String) (value : Payload)
  | reference (astId description noun : String)
  | this (astId : String)
  | unary (astId : String) (operator : UnaryOperator) (child : Transformation)
  | binary (astId : String) (operator : BinaryOperator) (left right : Transformation)
  | ifElse (astId : String) (condition whenTrue whenFalse : Transformation)
  | switch (astId : String) (cases : List (List Payload)) (children : List Transformation)
  | getVariable (astId name : String)
  | setVariable (astId name : String) (value : Transformation)
  | stochasticSwitch (astId : String) (probabilities : List Float)
      (children : List Transformation)
  deriving Inhabited

namespace Transformation

def astId : Transformation → String
  | sequential id _ | parallel id _ | operation id _ _ | precomputed id _ _ | literal id _
  | reference id _ _ | this id | unary id _ _ | binary id _ _ _ | ifElse id _ _ _
  | switch id _ _ | getVariable id _ | setVariable id _ _ | stochasticSwitch id _ _ => id

def typeName : Transformation → String
  | sequential .. => "sequential"
  | parallel .. => "parallel"
  | operation .. => "operation"
  | precomputed .. => "precomputedOperation"
  | literal .. => "raw"
  | reference .. => "nounReference"
  | this .. => "this"
  | unary .. => "unaryOperator"
  | binary .. => "binaryOperator"
  | ifElse .. => "if"
  | switch .. => "switch"
  | getVariable .. => "getVariable"
  | setVariable .. => "setVariable"
  | stochasticSwitch .. => "stochasticSwitch"

def children : Transformation → List Transformation
  | sequential _ children | parallel _ children | operation _ _ children | switch _ _ children
  | stochasticSwitch _ _ children => children
  | unary _ _ child | setVariable _ _ child => [child]
  | binary _ _ left right => [left, right]
  | ifElse _ condition whenTrue whenFalse => [condition, whenTrue, whenFalse]
  | _ => []

theorem sizeOf_lt_of_mem_children {node child : Transformation} (member : child ∈ node.children) :
    sizeOf child < sizeOf node := by
  have among {ts : List Transformation} (inside : child ∈ ts) : sizeOf child < sizeOf ts :=
    List.sizeOf_lt_of_mem inside
  cases node with
  | sequential id children | parallel id children | operation id name children
  | switch id cases children | stochasticSwitch id probabilities children =>
    have smaller := among member
    simp only [sequential.sizeOf_spec, parallel.sizeOf_spec, operation.sizeOf_spec,
      switch.sizeOf_spec, stochasticSwitch.sizeOf_spec, Transformation.children] at smaller ⊢
    omega
  | unary id operator child | setVariable id name child | binary id operator left right
  | ifElse id condition whenTrue whenFalse =>
    simp only [children, List.mem_cons, List.not_mem_nil, or_false] at member
    simp only [unary.sizeOf_spec, setVariable.sizeOf_spec, binary.sizeOf_spec,
      ifElse.sizeOf_spec]
    grind
  | _ => cases member

/-- What passes from the children of a node to the node holds of every node. -/
theorem induction_on_children {P : Transformation → Prop}
    (step : ∀ node : Transformation, (∀ child ∈ node.children, P child) → P node)
    (node : Transformation) : P node :=
  step node fun child _ => induction_on_children step child
termination_by sizeOf node
decreasing_by
  rename_i member
  exact sizeOf_lt_of_mem_children member

mutual

def nodes : Transformation → List Transformation
  | sequential id children => sequential id children :: nodesOf children
  | parallel id children => parallel id children :: nodesOf children
  | operation id name children => operation id name children :: nodesOf children
  | unary id operator child => unary id operator child :: nodes child
  | binary id operator left right => binary id operator left right :: nodes left ++ nodes right
  | ifElse id condition whenTrue whenFalse =>
    ifElse id condition whenTrue whenFalse
      :: nodes condition ++ nodes whenTrue ++ nodes whenFalse
  | switch id cases children => switch id cases children :: nodesOf children
  | setVariable id name value => setVariable id name value :: nodes value
  | stochasticSwitch id probabilities children =>
    stochasticSwitch id probabilities children :: nodesOf children
  | node => [node]

def nodesOf : List Transformation → List Transformation
  | [] => []
  | child :: rest => nodes child ++ nodesOf rest

end

mutual

def toJson : Transformation → Json
  | sequential id children => record "sequential" id [("children", .arr (toJsonList children))]
  | parallel id children => record "parallel" id [("children", .arr (toJsonList children))]
  | operation id name children =>
    record "operation" id [("identifier", .str name), ("children", .arr (toJsonList children))]
  | precomputed id name parameters =>
    record "precomputedOperation" id
      [("identifier", .str name), ("parameters", .arr (parameters.map Payload.toJson))]
  | literal id value => record "raw" id [("value", value.toJson)]
  | reference id description noun =>
    record "nounReference" id
      [("descriptionIdentifier", .str description), ("nounIdentifier", .str noun)]
  | this id => record "this" id []
  | unary id operator child =>
    record "unaryOperator" id [("operator", .str operator.symbol), ("child", toJson child)]
  | binary id operator left right =>
    record "binaryOperator" id
      [("operator", .str operator.symbol), ("left", toJson left), ("right", toJson right)]
  | ifElse id condition whenTrue whenFalse =>
    record "if" id
      [("condition", toJson condition), ("then", toJson whenTrue), ("else", toJson whenFalse)]
  | switch id cases children =>
    record "switch" id
      [("cases", .arr (cases.map fun row => .arr (row.map Payload.toJson))),
        ("children", .arr (toJsonList children))]
  | getVariable id name => record "getVariable" id [("identifier", .str name)]
  | setVariable id name value =>
    record "setVariable" id [("identifier", .str name), ("value", toJson value)]
  | stochasticSwitch id probabilities children =>
    record "stochasticSwitch" id
      [("probabilities", .arr (probabilities.map Json.float)),
        ("children", .arr (toJsonList children))]
where
  record (type id : String) (fields : List (String × Json)) : Json :=
    .obj (("astId", .str id) :: ("type", .str type) :: fields)

def toJsonList : List Transformation → List Json
  | [] => []
  | child :: rest => toJson child :: toJsonList rest

end

end Transformation
end ProceduralScene
