import ProceduralScene.Evaluation.Error
import ProceduralScene.Payload.Basic
import ProceduralScene.Program.Operator

/-! What the operators compute. Both operands are always evaluated first; the logical
operators give back one of them. -/
namespace ProceduralScene

def UnaryOperator.apply (astId : String) : UnaryOperator → Payload → Except EvalError Payload
  | not, operand => .ok (.bool !operand.isTruthy)
  | negate, .number x => .ok (.number (-x))
  | negate, operand => .error (.typeMismatch astId ("cannot negate " ++ operand.typeName))

namespace BinaryOperator

def arithmetic? : BinaryOperator → Option (Float → Float → Float)
  | add => some (· + ·)
  | subtract => some (· - ·)
  | multiply => some (· * ·)
  | divide => some (· / ·)
  | modulo => some Binary64.remainder
  | _ => none

def compareNumbers? : BinaryOperator → Option (Float → Float → Bool)
  | greater => some (· > ·)
  | greaterEqual => some (· ≥ ·)
  | less => some (· < ·)
  | lessEqual => some (· ≤ ·)
  | _ => none

/-- Texts compare by code points. -/
def compareTexts? : BinaryOperator → Option (String → String → Bool)
  | greater => some (· > ·)
  | greaterEqual => some (· ≥ ·)
  | less => some (· < ·)
  | lessEqual => some (· ≤ ·)
  | _ => none

def onNumbers (operator : BinaryOperator) (a b : Float) : Option Payload :=
  (operator.arithmetic?.map fun f => .number (f a b))
    <|> (operator.compareNumbers?.map fun holds => .bool (holds a b))

def onTexts (operator : BinaryOperator) (a b : String) : Option Payload :=
  if operator = add then some (.text (a ++ b))
  else operator.compareTexts?.map fun holds => .bool (holds a b)

/-- Arithmetic and comparison are partial; a sum with a text joins the shown operands. -/
def combine (operator : BinaryOperator) : Payload → Payload → Option Payload
  | .number a, .number b => operator.onNumbers a b
  | .text a, .text b => operator.onTexts a b
  | .text a, .number b =>
    if operator = add then some (.text (a ++ Payload.displayNumber b)) else none
  | .number a, .text b =>
    if operator = add then some (.text (Payload.displayNumber a ++ b)) else none
  | _, _ => none

def apply (astId : String) (operator : BinaryOperator) (left right : Payload) :
    Except EvalError Payload :=
  match operator with
  | and => .ok (if left.isTruthy then right else left)
  | or => .ok (if left.isTruthy then left else right)
  | equal => .ok (.bool (left == right))
  | notEqual => .ok (.bool (left != right))
  | _ =>
    match operator.combine left right with
    | some result => .ok result
    | none => .error (.typeMismatch astId ("cannot apply '" ++ operator.symbol ++ "' to "
        ++ left.typeName ++ " and " ++ right.typeName))

end BinaryOperator
end ProceduralScene
