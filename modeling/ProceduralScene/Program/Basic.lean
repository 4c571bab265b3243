import ProceduralScene.Keyed
import ProceduralScene.Program.Decode
import ProceduralScene.Value

/-! Programs: descriptions in the order of declaration, each with initial variables, named
rules and the name of its root rule. -/
namespace ProceduralScene

structure Noun where
  astId : String
  transformation : Transformation
  deriving Inhabited

structure Description where
  initialVariables : Variables
  nouns : Keyed Noun
  root : String
  deriving Inhabited

/-- Descriptions by name. Their order counts: an entry's id starts with the ordinal of its
description. -/
abbrev Program := Keyed Description

namespace Noun

def toJson (n : Noun) : Json :=
  .obj [("astId", .str n.astId), ("transformation", n.transformation.toJson)]

def ofJson (json : Json) : Option Noun :=
  match json.members ["astId", "transformation"] with
  | some [some astId, some transformation] => do
    return {
      astId := ← astId.string?
      transformation := ← Transformation.ofJson transformation }
  | _ => none

end Noun

/-- Every entry of an object must decode, also one that a later entry replaces. -/
def Keyed.ofJson (decode : Json → Option α) (json : Json) : Option (Keyed α) := do
  let fields ← json.fields?
  let entries ← fields.mapM fun field => do return (field.1, ← decode field.2)
  return Keyed.ofList entries

def Keyed.toJson (encode : α → Json) (m : Keyed α) : Json :=
  .obj (m.entries.map fun entry => (entry.1, encode entry.2))

namespace Description

def rootNoun? (d : Description) : Option Noun := d.nouns.get? d.root

/-- A description opts out of running by a variable. -/
def isInterpreted (d : Description) : Bool :=
  match d.initialVariables.get? "interprete" with
  | some (.bool false) => false
  | _ => true

def seed (d : Description) : String :=
  match d.initialVariables.get? "seed" with
  | none | some .nil => "0"
  | some other => other.display

def toJson (d : Description) : Json :=
  .obj [("initialVariables", d.initialVariables.toJson), ("nouns", d.nouns.toJson Noun.toJson),
    ("rootNounIdentifier", .str d.root)]

/-- The initial variables may be missing, though not from an array. -/
def ofJson (json : Json) : Option Description :=
  match json.members ["initialVariables", "nouns", "rootNounIdentifier"] with
  | some [vars, some nouns, some root] => do
    return {
      initialVariables := ← Variables.ofJson (vars.getD (.obj []))
      nouns := ← Keyed.ofJson Noun.ofJson nouns
      root := ← root.string? }
  | _ => none

end Description

namespace Program

def noun? (p : Program) (description noun : String) : Option Noun := do
  (← p.get? description).nouns.get? noun

def toJson (p : Program) : Json := Keyed.toJson Description.toJson p

def ofJson (json : Json) : Option Program := Keyed.ofJson Description.ofJson json

end Program
end ProceduralScene
