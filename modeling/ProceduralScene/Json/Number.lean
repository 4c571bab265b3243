import ProceduralScene.Json.Basic

/-! Number literals. A literal is read in two roundings: its leading digits, as many as 64 bits
hold, become a double, and that double is scaled by a power of ten. Whole literals that fit 64
bits stay integers. -/
namespace ProceduralScene.Json.Number

def digitOf (c : Char) : Nat := c.toNat - '0'.toNat

def natOf (digits : List Char) : Nat := digits.foldl (fun n c => n * 10 + digitOf c) 0

def absorb (n : Nat) : List Char → Nat × List Char
  | [] => (n, [])
  | c :: rest =>
    if n * 10 + digitOf c < UInt64.size then absorb (n * 10 + digitOf c) rest else (n, c :: rest)

def powerOfTen (exponent : Nat) : Float := Float.ofScientific 1 false exponent

/-- Divides by a power of ten, by at most `10 ^ 308` at once. Three steps exhaust every
number that 64 bits hold. -/
def shrink : Nat → Float → Nat → Float
  | 0, x, _ => x
  | fuel + 1, x, exponent =>
    if exponent ≤ 308 then x / powerOfTen exponent
    else shrink fuel (x / powerOfTen 308) (exponent - 308)

def scaled (digits : Nat) (exponent : Int) : Float :=
  let x := digits.toFloat
  if exponent < 0 then shrink 3 x exponent.natAbs
  else if exponent ≤ 308 then x * powerOfTen exponent.toNat
  else if digits = 0 then 0 else 1 / 0

def signed (negative : Bool) (x : Float) : Float := if negative then -x else x

/-- A whole literal. Negative zero is no integer, nor is what 64 bits do not hold. -/
def ofWhole (negative : Bool) (whole : List Char) : Json :=
  let (n, dropped) := absorb 0 whole
  if !dropped.isEmpty then float (signed negative (scaled n dropped.length))
  else if !negative then int n
  else if n = 0 ∨ Int64.size / 2 < n then float (-n.toFloat)
  else int (-n)

/-- Whole digits that do not fit count as places; further decimals do not count. -/
def ofParts (negative : Bool) (whole decimals : List Char) (power : Int) : Json :=
  let (n, dropped) := absorb 0 whole
  let (n, unread) := absorb n decimals
  let places := Int.ofNat dropped.length - Int.ofNat (decimals.length - unread.length)
  float (signed negative (scaled n (places + power)))

def wholeDigits : List Char → Option (List Char × List Char)
  | '0' :: rest => if rest.head?.any Char.isDigit then none else some (['0'], rest)
  | cs =>
    let digits := cs.takeWhile Char.isDigit
    if digits.isEmpty then none else some (digits, cs.dropWhile Char.isDigit)

def decimals : List Char → Option (Option (List Char) × List Char)
  | '.' :: rest =>
    let digits := rest.takeWhile Char.isDigit
    if digits.isEmpty then none else some (some digits, rest.dropWhile Char.isDigit)
  | cs => some (none, cs)

def signedPower (negative : Bool) (cs : List Char) : Option (Option Int × List Char) :=
  let digits := cs.takeWhile Char.isDigit
  if digits.isEmpty then none
  else
    let n := Int.ofNat (natOf digits)
    some (some (if negative then -n else n), cs.dropWhile Char.isDigit)

def power : List Char → Option (Option Int × List Char)
  | [] => some (none, [])
  | c :: rest =>
    if c = 'e' ∨ c = 'E' then
      match rest with
      | '+' :: digits => signedPower false digits
      | '-' :: digits => signedPower true digits
      | digits => signedPower false digits
    else some (none, c :: rest)

def read (negative : Bool) (cs : List Char) : Option (Json × List Char) := do
  let (whole, cs) ← wholeDigits cs
  let (fraction, cs) ← decimals cs
  let (power, cs) ← power cs
  match fraction, power with
  | none, none => return (ofWhole negative whole, cs)
  | _, _ => return (ofParts negative whole (fraction.getD []) (power.getD 0), cs)

end ProceduralScene.Json.Number
