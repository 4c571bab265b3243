import ProceduralScene.Json.Basic

/-! The operators of expressions and their symbols. -/
namespace ProceduralScene

inductive UnaryOperator where
  | negate
  | not
  deriving DecidableEq

inductive BinaryOperator where
  | add
  | subtract
  | multiply
  | divide
  | modulo
  | equal
  | notEqual
  | greater
  | greaterEqual
  | less
  | lessEqual
  | and
  | or
  deriving DecidableEq

namespace UnaryOperator

def symbol : UnaryOperator → String
  | negate => "-"
  | not => "!"

def all : List UnaryOperator := [negate, not]

def ofSymbol (symbol : String) : Option UnaryOperator := all.find? (·.symbol == symbol)

theorem ofSymbol_symbol (o : UnaryOperator) : ofSymbol o.symbol = some o := by
  cases o <;> rfl

end UnaryOperator

namespace BinaryOperator

def symbol : BinaryOperator → String
  | add => "+"
  | subtract => "-"
  | multiply => "*"
  | divide => "/"
  | modulo => "%"
  | equal => "=="
  | notEqual => "!="
  | greater => ">"
  | greaterEqual => ">="
  | less => "<"
  | lessEqual => "<="
  | and => "&&"
  | or => "||"

def all : List BinaryOperator :=
  [add, subtract, multiply, divide, modulo, equal, notEqual, greater, greaterEqual, less,
    lessEqual, and, or]

def ofSymbol (symbol : String) : Option BinaryOperator := all.find? (·.symbol == symbol)

theorem ofSymbol_symbol (o : BinaryOperator) : ofSymbol o.symbol = some o := by
  cases o <;> rfl

end BinaryOperator

namespace Json

/-- A symbol stands alone or as the only field of an object. That field is null; inside a
transformation, `nested`, it may also be an empty object. -/
def symbol? (nested : Bool) : Json → Option String
  | str s => some s
  | obj [(s, null)] => some s
  | obj [(s, obj [])] => if nested then some s else none
  | _ => none

end Json

def UnaryOperator.ofJson (nested : Bool) (json : Json) : Option UnaryOperator :=
  (json.symbol? nested).bind UnaryOperator.ofSymbol

def BinaryOperator.ofJson (nested : Bool) (json : Json) : Option BinaryOperator :=
  (json.symbol? nested).bind BinaryOperator.ofSymbol

end ProceduralScene
