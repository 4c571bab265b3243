import ProceduralScene.Json.Number
import ProceduralScene.Text.Units16

/-! The lexical grammar of JSON. Scanning never fails as a whole: where the text stops being
JSON, a `fault` token ends the list, so what stands before it can still be read. -/
namespace ProceduralScene.Json

inductive Token where
  | openArr
  | closeArr
  | openObj
  | closeObj
  | comma
  | colon
  | literal (value : Json)
  | fault

namespace Token

def hexDigit? (c : Char) : Option Nat :=
  if c.isDigit then some (c.toNat - '0'.toNat)
  else if 'a' ≤ c ∧ c ≤ 'f' then some (c.toNat - 'a'.toNat + 10)
  else if 'A' ≤ c ∧ c ≤ 'F' then some (c.toNat - 'A'.toNat + 10)
  else none

def hex4? (w x y z : Char) : Option Nat := do
  return (((← hexDigit? w) * 16 + (← hexDigit? x)) * 16 + (← hexDigit? y)) * 16 + (← hexDigit? z)

def simpleEscape? : Char → Option Char
  | '"' => some '"'
  | '\\' => some '\\'
  | '/' => some '/'
  | 'b' => some '\x08'
  | 'f' => some '\x0c'
  | 'n' => some '\n'
  | 'r' => some '\r'
  | 't' => some '\t'
  | _ => none

/-- The characters of a string so far, in reverse; none once a surrogate stands alone. A high
surrogate waits in `high` for its low half. -/
structure Spelling where
  done : Option (List Char) := some []
  high : Option Nat := none

namespace Spelling

def push (s : Spelling) (c : Char) : Spelling :=
  { done := if s.high.isSome then none else s.done.map (c :: ·) }

def pushUnit (s : Spelling) (unit : Nat) : Spelling :=
  match s.high with
  | some first =>
    if Text.isLowSurrogate unit then { done := s.done.map (Text.charOfPair first unit :: ·) }
    else { done := none }
  | none =>
    if Text.isHighSurrogate unit then { s with high := some unit }
    else if Text.isLowSurrogate unit then { done := none }
    else s.push (Char.ofNat unit)

def toJson (s : Spelling) : Json :=
  match s.done, s.high with
  | some done, none => str (String.ofList done.reverse)
  | _, _ => flawed []

end Spelling

def string (s : Spelling) : List Char → Option (Json × List Char)
  | '"' :: rest => some (s.toJson, rest)
  | '\\' :: 'u' :: w :: x :: y :: z :: rest =>
    match hex4? w x y z with
    | some unit => string (s.pushUnit unit) rest
    | none => none
  | '\\' :: c :: rest =>
    match simpleEscape? c with
    | some d => string (s.push d) rest
    | none => none
  | c :: rest => if 0x20 ≤ c.toNat then string (s.push c) rest else none
  | [] => none

def next : List Char → Option (Token × List Char)
  | '[' :: rest => some (openArr, rest)
  | ']' :: rest => some (closeArr, rest)
  | '\x7b' :: rest => some (openObj, rest)
  | '\x7d' :: rest => some (closeObj, rest)
  | ',' :: rest => some (comma, rest)
  | ':' :: rest => some (colon, rest)
  | 'n' :: 'u' :: 'l' :: 'l' :: rest => some (literal null, rest)
  | 't' :: 'r' :: 'u' :: 'e' :: rest => some (literal (bool true), rest)
  | 'f' :: 'a' :: 'l' :: 's' :: 'e' :: rest => some (literal (bool false), rest)
  | '"' :: rest => (string {} rest).map fun (s, rest) => (literal s, rest)
  | '-' :: rest => (Number.read true rest).map fun (n, rest) => (literal n, rest)
  | cs => (Number.read false cs).map fun (n, rest) => (literal n, rest)

def isBlank (c : Char) : Bool := c = ' ' || c = '\t' || c = '\n' || c = '\r'

/-- Every token takes a character, so as much fuel as characters is enough. -/
def scan : Nat → List Char → List Token
  | 0, _ => []
  | fuel + 1, cs =>
    match cs.dropWhile isBlank with
    | [] => []
    | c :: rest =>
      match next (c :: rest) with
      | some (token, rest) => token :: scan fuel rest
      | none => [fault]

def ofText (input : String) : List Token :=
  let cs := input.toList
  scan (cs.length + 1) cs

end Token
end ProceduralScene.Json
