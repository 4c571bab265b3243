import ProceduralScene.Decimal.Shortest

/-! How chosen digits are laid out as text. One record holds all decisions of a format, and
the two formats of the library are two such records. -/
namespace ProceduralScene.Decimal

/-- The decisions of a number format. A power of ten between `lowest` and `highest` is
written positionally, any other in scientific form; `none` sets no bound. -/
structure Layout where
  tie : Tie
  lowest : Option Int
  highest : Option Int
  wholeMark : String

/-- Numbers inside documents: a whole number keeps `.0`, and `1e16` and `1e-6` are
scientific. -/
def Layout.document : Layout := ⟨.toEven, some (-5), some 15, ".0"⟩

/-- Numbers inside messages: never an exponent, and no mark after a whole number. -/
def Layout.message : Layout := ⟨.upward, none, none, ""⟩

def zeros (n : Nat) : String := "".pushn '0' n

def positional (mark : String) (digits : List Char) (point : Int) : String :=
  if point ≤ 0 then "0." ++ zeros (-point).toNat ++ String.ofList digits
  else
    let whole := point.toNat
    if digits.length ≤ whole then
      String.ofList digits ++ zeros (whole - digits.length) ++ mark
    else String.ofList (digits.take whole) ++ "." ++ String.ofList (digits.drop whole)

def scientific (digits : List Char) (power : Int) : String :=
  let mantissa := match digits with
    | [] => ""
    | [lead] => lead.toString
    | lead :: rest => lead.toString ++ "." ++ String.ofList rest
  mantissa ++ (if power < 0 then "e-" else "e+") ++ toString power.natAbs

def Layout.magnitude (layout : Layout) (d : Binary64.Dyadic) : String :=
  if d.mantissa = 0 then "0" ++ layout.wholeMark
  else
    let chosen := shortest layout.tie d
    let digits := Nat.toDigits 10 chosen.digits
    let point := chosen.exponent + digits.length
    if layout.lowest.all (· < point) && layout.highest.all (point ≤ · + 1) then
      positional layout.wholeMark digits point
    else scientific digits (point - 1)

def Layout.text (layout : Layout) (x : Float) : String :=
  if x.isNaN then "NaN"
  else
    let d := Binary64.dyadic x
    (if d.negative then "-" else "") ++ (if x.isInf then "inf" else layout.magnitude d)

end ProceduralScene.Decimal
