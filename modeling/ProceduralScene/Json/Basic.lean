/-! JSON values as they stand in a document. Objects keep the order of their fields and all
duplicates, because a decoder may have to refuse a duplicate; whole literals stay integers,
because some fields take no other number. An escape can leave half of a surrogate pair alone;
such a string is no text, yet a decoder that passes over it does not mind, and of an object with
such a name the fields in front of it are kept. -/
namespace ProceduralScene

inductive Json where
  | null
  | bool (value : Bool)
  | int (value : Int)
  | float (value : Float)
  | str (value : String)
  | arr (items : List Json)
  | obj (fields : List (String × Json))
  | flawed (before : List (String × Json))
  deriving Inhabited

namespace Json

def number? : Json → Option Float
  | int n => let x := Float.ofInt n; if x.isFinite then some x else none
  | float x => if x.isFinite then some x else none
  | _ => none

def string? : Json → Option String
  | str s => some s
  | _ => none

def items? : Json → Option (List Json)
  | arr items => some items
  | _ => none

def fields? : Json → Option (List (String × Json))
  | obj fields => some fields
  | _ => none

/-- A literal below `2 ^ 64` without sign, fraction or exponent. -/
def word64? : Json → Option Nat
  | int n => if 0 ≤ n ∧ n < UInt64.size then some n.toNat else none
  | _ => none

def optionalString? : Json → Option (Option String)
  | null => some none
  | str s => some (some s)
  | _ => none

mutual

/-- At no depth does a literal overflow to infinity or a surrogate stand alone. -/
def isSound : Json → Bool
  | null | bool _ | str _ => true
  | int n => (Float.ofInt n).isFinite
  | float x => x.isFinite
  | arr items => isSoundItems items
  | obj fields => isSoundFields fields
  | flawed _ => false

def isSoundItems : List Json → Bool
  | [] => true
  | item :: rest => isSound item && isSoundItems rest

def isSoundFields : List (String × Json) → Bool
  | [] => true
  | (_, value) :: rest => isSound value && isSoundFields rest

end

/-- The field of a name, if there is one; two of one name are refused. -/
def field (fields : List (String × Json)) (name : String) : Option (Option Json) :=
  match fields.filter (·.1 == name) with
  | [] => some none
  | [(_, value)] => some (some value)
  | _ => none

/-- The named members of a record, written as an object with the fields in any order among
others, or as an array of exactly these members. -/
def members (names : List String) : Json → Option (List (Option Json))
  | obj fields => names.mapM (field fields)
  | arr items => if items.length = names.length then some (items.map some) else none
  | _ => none

mutual

def sorted : Json → Json
  | arr items => arr (sortedItems items)
  | obj fields => obj ((sortedFields fields).mergeSort (·.1 ≤ ·.1))
  | value => value

def sortedItems : List Json → List Json
  | [] => []
  | item :: rest => sorted item :: sortedItems rest

def sortedFields : List (String × Json) → List (String × Json)
  | [] => []
  | (name, value) :: rest => (name, sorted value) :: sortedFields rest

end

end Json
end ProceduralScene
