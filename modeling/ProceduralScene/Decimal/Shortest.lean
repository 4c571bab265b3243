import ProceduralScene.Binary64

/-! The shortest decimal that reads back. A double owns an interval of reals that round to
it; for one digit, two digits and so on, the two neighbours of the value on that decimal grid
are tried, and the first grid with a neighbour inside the interval wins. The arithmetic is on
naturals, so nothing is rounded on the way. -/
namespace ProceduralScene.Decimal

structure Digits where
  digits : Nat
  exponent : Int

inductive Tie where
  | toEven
  | upward

def countDigits (n : Nat) : Nat :=
  if n = 0 then 0 else (Nat.toDigits 10 n).length

/-- The `k` with `10 ^ (k-1) ≤ num / den < 10 ^ k`. -/
def magnitude (num den : Nat) : Int :=
  if den ≤ num then countDigits (num / den) else 1 - Int.ofNat (countDigits ((den - 1) / num))

/-- The reals that round to a double, over a common denominator; the ends belong to it
exactly when the mantissa is even. -/
structure Interval where
  lower : Nat
  value : Nat
  upper : Nat
  denominator : Nat
  closed : Bool

/-- The gap below a power of two is half the gap above it. -/
def interval (d : Binary64.Dyadic) : Interval :=
  let below := if d.mantissa = Binary64.leadingBit ∧ -1074 < d.exponent then 1 else 2
  let scale := d.exponent - 2
  let up := 1 <<< scale.toNat
  { lower := (4 * d.mantissa - below) * up
    value := 4 * d.mantissa * up
    upper := (4 * d.mantissa + 2) * up
    denominator := 1 <<< (-scale).toNat
    closed := d.mantissa % 2 == 0 }

def Interval.inUnits (r : Interval) (exponent : Int) : Interval :=
  let down := Nat.pow 10 (-exponent).toNat
  { r with
    lower := r.lower * down
    value := r.value * down
    upper := r.upper * down
    denominator := r.denominator * Nat.pow 10 exponent.toNat }

def Interval.contains (r : Interval) (n : Nat) : Bool :=
  if r.closed then r.lower ≤ n * r.denominator && n * r.denominator ≤ r.upper
  else r.lower < n * r.denominator && n * r.denominator < r.upper

def Interval.nearest (tie : Tie) (r : Interval) : Option Nat :=
  let low := r.value / r.denominator
  let high := low + 1
  match r.contains low, r.contains high with
  | false, false => none
  | true, false => some low
  | false, true => some high
  | true, true =>
    let toLow := r.value - low * r.denominator
    let toHigh := high * r.denominator - r.value
    if toLow < toHigh then some low
    else if toHigh < toLow then some high
    else match tie with
      | .upward => some high
      | .toEven => some (if low % 2 = 0 then low else high)

def Digits.strip : Nat → Digits → Digits
  | 0, d => d
  | fuel + 1, d =>
    if d.digits % 10 = 0 then strip fuel ⟨d.digits / 10, d.exponent + 1⟩ else d

def search (tie : Tie) (r : Interval) (top : Int) : Nat → Nat → Digits
  | 0, _ => ⟨r.value / r.denominator, 0⟩
  | fuel + 1, count =>
    match (r.inUnits (top - count)).nearest tie with
    | some n => Digits.strip 20 ⟨n, top - count⟩
    | none => search tie r top fuel (count + 1)

/-- Seventeen digits tell any two doubles apart. The dyadic must not be zero. -/
def shortest (tie : Tie) (d : Binary64.Dyadic) : Digits :=
  let r := interval d
  search tie r (magnitude r.value r.denominator) 17 1

end ProceduralScene.Decimal
