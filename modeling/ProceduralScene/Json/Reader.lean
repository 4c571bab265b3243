import ProceduralScene.Json.Token

/-! Reading a document is one pass over its tokens with a stack of open containers. A broken
document gives back what had been read when it broke: some decoders look at a value before
its surroundings are complete, and their complaint then comes first. -/
namespace ProceduralScene.Json

/-- The fields of an object so far, in reverse. After a flawed name none is added. -/
structure Fields where
  done : List (String × Json) := []
  isFlawed : Bool := false

namespace Fields

def add (f : Fields) (name : String) (value : Json) : Fields :=
  if f.isFlawed then f else { f with done := (name, value) :: f.done }

def toJson (f : Fields) : Json := if f.isFlawed then flawed f.done.reverse else obj f.done.reverse

end Fields

inductive Frame where
  | items (done : List Json)
  | fields (done : Fields) (name : String)

inductive Expected where
  | value
  | firstItem
  | firstName
  | name (done : Fields)
  | colon
  | separator (value : Json)

/-- Closes the open containers around what has been read so far. -/
def salvage : List Frame → Option Json → Option Json
  | [], value => value
  | .items done :: rest, value => salvage rest (some (arr (value.toList ++ done).reverse))
  | .fields done name :: rest, value =>
    salvage rest (some (value.elim done (done.add name)).toJson)

def remains (stack : List Frame) : Expected → Option Json
  | .firstName => salvage stack (some (obj []))
  | .name done => salvage stack (some done.toJson)
  | .separator value => salvage stack (some value)
  | .value | .firstItem | .colon => salvage stack none

def read : List Frame → Expected → List Token → Except (Option Json) Json
  | [], .separator value, [] => .ok value
  | stack, .value, .literal v :: rest => read stack (.separator v) rest
  | stack, .value, .openArr :: rest => read (.items [] :: stack) .firstItem rest
  | stack, .value, .openObj :: rest => read stack .firstName rest
  | stack, .firstItem, .literal v :: rest => read stack (.separator v) rest
  | stack, .firstItem, .openArr :: rest => read (.items [] :: stack) .firstItem rest
  | stack, .firstItem, .openObj :: rest => read stack .firstName rest
  | .items done :: stack, .firstItem, .closeArr :: rest =>
    read stack (.separator (arr done.reverse)) rest
  | stack, .firstName, .closeObj :: rest => read stack (.separator (obj [])) rest
  | stack, .firstName, .literal (str name) :: rest => read (.fields {} name :: stack) .colon rest
  | stack, .firstName, .literal (flawed _) :: rest =>
    read (.fields { isFlawed := true } "" :: stack) .colon rest
  | stack, .name done, .literal (str name) :: rest =>
    read (.fields done name :: stack) .colon rest
  | stack, .name done, .literal (flawed _) :: rest =>
    read (.fields { done with isFlawed := true } "" :: stack) .colon rest
  | stack, .colon, .colon :: rest => read stack .value rest
  | .items done :: stack, .separator v, .comma :: rest =>
    read (.items (v :: done) :: stack) .value rest
  | .items done :: stack, .separator v, .closeArr :: rest =>
    read stack (.separator (arr (v :: done).reverse)) rest
  | .fields done name :: stack, .separator v, .comma :: rest =>
    read stack (.name (done.add name v)) rest
  | .fields done name :: stack, .separator v, .closeObj :: rest =>
    read stack (.separator (done.add name v).toJson) rest
  | stack, expected, _ => .error (remains stack expected)

abbrev Document := Except (Option Json) Json

def ofText (input : String) : Document := read [] .value (Token.ofText input)

end ProceduralScene.Json
