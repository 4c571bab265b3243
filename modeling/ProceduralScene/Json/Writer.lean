import ProceduralScene.Json.Basic
import ProceduralScene.Decimal.Layout

/-! The compact text of a JSON value: no blanks, fields in their order, and null for a number
that is not finite and for what is flawed. -/
namespace ProceduralScene.Json

def hexPair (n : Nat) : String :=
  String.ofList [Nat.digitChar (n / 16), Nat.digitChar (n % 16)]

def escaped (c : Char) : String :=
  match c with
  | '"' => "\\\""
  | '\\' => "\\\\"
  | '\x08' => "\\b"
  | '\x0c' => "\\f"
  | '\n' => "\\n"
  | '\r' => "\\r"
  | '\t' => "\\t"
  | _ => if c.toNat < 0x20 then "\\u00" ++ hexPair c.toNat else c.toString

def quoted (s : String) : String :=
  s.foldl (fun done c => done ++ escaped c) "\"" ++ "\""

mutual

def write (done : String) : Json → String
  | null => done ++ "null"
  | bool b => done ++ (if b then "true" else "false")
  | int n => done ++ toString n
  | float x => done ++ (if x.isFinite then Decimal.Layout.document.text x else "null")
  | str s => done ++ quoted s
  | arr [] => done ++ "[]"
  | arr (item :: rest) => writeItems (write (done ++ "[") item) rest ++ "]"
  | obj [] => done ++ "\x7b\x7d"
  | obj ((name, value) :: rest) =>
    writeFields (write (done ++ "\x7b" ++ quoted name ++ ":") value) rest ++ "\x7d"
  | flawed _ => done ++ "null"

def writeItems (done : String) : List Json → String
  | [] => done
  | item :: rest => writeItems (write (done ++ ",") item) rest

def writeFields (done : String) : List (String × Json) → String
  | [] => done
  | (name, value) :: rest => writeFields (write (done ++ "," ++ quoted name ++ ":") value) rest

end

def compact (value : Json) : String := write "" value

end ProceduralScene.Json
