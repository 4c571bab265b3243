import ProceduralScene.Json.Reader
import ProceduralScene.Decimal.Layout

/-! Settings are records in which every field has a default. They are checked in the order of
the text, and the first complaint counts, even when the text breaks off after it. -/
namespace ProceduralScene

inductive SettingsError where
  | malformed
  | notPositive (seconds : Float)

def SettingsError.message? : SettingsError → Option String
  | malformed => none
  | notPositive seconds =>
    some ("expected a positive number of seconds, got " ++ Decimal.Layout.message.text seconds)

namespace Settings

abbrev Field (σ : Type) := String × (σ → Json → Except SettingsError σ)

/-- A field may stand once. Unknown fields are ignored. -/
def ofFields (known : List (Field σ)) (seen : List String) (s : σ) :
    List (String × Json) → Except SettingsError σ
  | [] => .ok s
  | (name, value) :: rest =>
    match known.find? (·.1 == name) with
    | none => ofFields known seen s rest
    | some (_, change) =>
      if seen.contains name then .error .malformed
      else do ofFields known (name :: seen) (← change s value) rest

/-- An array gives the fields in their order and may end early. -/
def ofItems (s : σ) : List (Field σ) → List Json → Except SettingsError σ
  | _, [] => .ok s
  | [], _ :: _ => .error .malformed
  | (_, change) :: known, value :: rest => do ofItems (← change s value) known rest

def ofJson (known : List (Field σ)) (defaults : σ) : Json → Except SettingsError σ
  | .obj fields => ofFields known [] defaults fields
  | .flawed before => do
    let _ ← ofFields known [] defaults before
    throw .malformed
  | .arr items => ofItems defaults known items
  | _ => .error .malformed

/-- Of a broken text, what had been read is still checked. -/
def ofDocument (decode : Json → Except SettingsError σ) (document : Json.Document) :
    Except SettingsError σ :=
  match document with
  | .ok value => decode value
  | .error remains =>
    match remains.map decode with
    | some (.error (.notPositive seconds)) => .error (.notPositive seconds)
    | _ => .error .malformed

def required (value : Option β) : Except SettingsError β :=
  match value with
  | some b => .ok b
  | none => .error .malformed

end Settings
end ProceduralScene
