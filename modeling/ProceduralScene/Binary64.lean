/-! A finite double is a signed dyadic: a mantissa below `2 ^ 53` times a power of two.
Truncation, remainder and the total order work on that reading or on the bits, so each of
them is exact and none depends on how a processor rounds. -/
namespace ProceduralScene.Binary64

structure Dyadic where
  negative : Bool
  mantissa : Nat
  exponent : Int

def leadingBit : Nat := 4503599627370496

def isNegative (x : Float) : Bool := x.toBits >>> 63 == 1

/-- The reading of a finite double. Subnormals share the lowest exponent, `-1074`. -/
def dyadic (x : Float) : Dyadic :=
  let bits := x.toBits.toNat
  let fraction := bits % leadingBit
  let scale := bits / leadingBit % 2048
  if scale = 0 then ⟨isNegative x, fraction, -1074⟩
  else ⟨isNegative x, fraction + leadingBit, Int.ofNat scale - 1075⟩

/-- The double of an exactly representable dyadic whose mantissa is below `2 ^ 53`. -/
def Dyadic.toFloat (d : Dyadic) : Float :=
  let magnitude :=
    if d.mantissa = 0 then 0 else
      let room := min (52 - d.mantissa.log2) (d.exponent + 1074).toNat
      let mantissa := d.mantissa <<< room
      if mantissa < leadingBit then mantissa
      else mantissa - leadingBit + (d.exponent - room + 1075).toNat <<< 52
  Float.ofBits (UInt64.ofNat (if d.negative then magnitude + 9223372036854775808 else magnitude))

def Dyadic.floor (d : Dyadic) : Nat :=
  if 0 ≤ d.exponent then d.mantissa <<< d.exponent.toNat else d.mantissa >>> (-d.exponent).toNat

def Dyadic.isIntegral (d : Dyadic) : Bool :=
  0 ≤ d.exponent || d.mantissa % (1 <<< (-d.exponent).toNat) == 0

def isIntegral (x : Float) : Bool := x.isFinite && (dyadic x).isIntegral

def truncate (x : Float) : Int :=
  let d := dyadic x
  if d.negative then -Int.ofNat d.floor else Int.ofNat d.floor

def truncate64 (x : Float) : Int :=
  max (-9223372036854775808) (min 9223372036854775807 (truncate x))

/-- Truncation to a count: negative numbers and NaN give 0, and `limit` caps the rest. -/
def truncateNat (limit : Nat) (x : Float) : Nat :=
  if x.isNaN then 0
  else if x.isInf then (if isNegative x then 0 else limit)
  else min limit (truncate x).toNat

/-- The exact remainder of the truncated quotient; it has the sign of the dividend. -/
def remainder (a b : Float) : Float :=
  if a.isFinite && !b.isNaN && b != 0 then
    if b.isInf then a else
      let x := dyadic a
      let y := dyadic b
      let exponent := min x.exponent y.exponent
      let left := x.mantissa <<< (x.exponent - exponent).toNat
      let right := y.mantissa <<< (y.exponent - exponent).toNat
      Dyadic.toFloat ⟨x.negative, left % right, exponent⟩
  else 0 / 0

/-- The lesser of two doubles, where a number wins over NaN. -/
def lesser (a b : Float) : Float :=
  if a.isNaN then b
  else if b.isNaN then a
  else if b < a then b else a

/-- Rank in the total order of doubles: -NaN < -∞ < … < -0.0 < 0.0 < … < ∞ < NaN, and the NaNs of
either sign by their payloads. Reversing the negative half of the bit patterns makes their unsigned
order that order. -/
def rank (bits : UInt64) : UInt64 :=
  if bits >>> 63 == 1 then ~~~bits else bits ||| 0x8000000000000000

end ProceduralScene.Binary64
