import ProceduralScene.Payload.Motion
import ProceduralScene.Payload.Pathway

/-! The payload that every entry carries and every literal produces. In documents it is
untagged: which kind of value a text denotes is decided by trying the kinds in a fixed order. -/
namespace ProceduralScene

inductive Payload where
  | nil
  | bool (value : Bool)
  | number (value : Float)
  | text (value : String)
  | list (items : List Payload)
  | motion (value : Motion)
  | pathway (value : Pathway)
  | point (value : Point)
  deriving Inhabited

namespace Payload

def typeName : Payload → String
  | nil => "nil"
  | bool _ => "bool"
  | number _ => "number"
  | text _ => "string"
  | list _ => "list"
  | motion _ => "motion entity"
  | pathway _ => "pathway"
  | point _ => "point"

def isNil : Payload → Bool
  | nil => true
  | _ => false

/-- Zero, NaN, nil and whatever is empty count as false. -/
def isTruthy : Payload → Bool
  | nil => false
  | bool b => b
  | number x => x != 0 && !x.isNaN
  | text s => !s.isEmpty
  | list items => !items.isEmpty
  | motion _ | pathway _ | point _ => true

def number? : Payload → Option Float
  | number x => some x
  | _ => none

def text? : Payload → Option String
  | text s => some s
  | _ => none

def motion? : Payload → Option Motion
  | motion m => some m
  | _ => none

def pathway? : Payload → Option Pathway
  | pathway p => some p
  | _ => none

mutual

/-- Equality of the numbers inside: NaN differs from itself, and the two zeros are equal. -/
def equal : Payload → Payload → Bool
  | nil, nil => true
  | bool a, bool b => a == b
  | number a, number b => a == b
  | text a, text b => a == b
  | list a, list b => equalItems a b
  | motion a, motion b => a == b
  | pathway a, pathway b => a == b
  | point a, point b => a == b
  | _, _ => false

def equalItems : List Payload → List Payload → Bool
  | [], [] => true
  | a :: as, b :: bs => equal a b && equalItems as bs
  | _, _ => false

end

instance : BEq Payload := ⟨equal⟩

def displayNumber (x : Float) : String :=
  if Binary64.isIntegral x then toString (Binary64.truncate64 x)
  else Decimal.Layout.message.text x

mutual

def display : Payload → String
  | nil => "nil"
  | bool b => if b then "true" else "false"
  | number x => displayNumber x
  | text s => s
  | list [] => "[]"
  | list (item :: rest) => "[" ++ display item ++ displayRest rest ++ "]"
  | motion m => "<" ++ m.kind ++ " entity>"
  | pathway p => "<" ++ p.kind ++ " pathway>"
  | point p => p.display

def displayRest : List Payload → String
  | [] => ""
  | item :: rest => ", " ++ display item ++ displayRest rest

end

mutual

def toJson : Payload → Json
  | nil => .null
  | bool b => .bool b
  | number x => .float x
  | text s => .str s
  | list items => .arr (toJsonItems items)
  | motion m => m.toJson
  | pathway p => p.toJson
  | point p => p.toJson

def toJsonItems : List Payload → List Json
  | [] => []
  | item :: rest => toJson item :: toJsonItems rest

end

/-- The kinds that are records: the first that fits wins. -/
def ofRecord (json : Json) : Option Payload :=
  (Motion.ofJson json).map motion
    <|> (Pathway.ofJson json).map pathway
    <|> (Point.ofJson json).map point

mutual

/-- Decodes a sound value. An array is a list if its members are
payloads, and may otherwise still be a record. -/
def decode : Json → Option Payload
  | .null => some nil
  | .bool b => some (bool b)
  | .int n => some (number (Float.ofInt n))
  | .float x => some (number x)
  | .str s => some (text s)
  | .arr items => (decodeItems items).map list <|> ofRecord (.arr items)
  | .obj fields => ofRecord (.obj fields)
  | .flawed _ => none

def decodeItems : List Json → Option (List Payload)
  | [] => some []
  | item :: rest => do return (← decode item) :: (← decodeItems rest)

end

/-- Ignored fields must be sound too. -/
def ofJson (json : Json) : Option Payload :=
  if json.isSound then decode json else none

end Payload
end ProceduralScene
