/-! The SHA-256 digest of a text, in lower-case hexadecimal. -/
namespace ProceduralScene.Sha256

def roundConstants : List UInt32 := [
  0x428a2f98, 0x71374491, 0xb5c0fbcf, 0xe9b5dba5, 0x3956c25b, 0x59f111f1, 0x923f82a4, 0xab1c5ed5,
  0xd807aa98, 0x12835b01, 0x243185be, 0x550c7dc3, 0x72be5d74, 0x80deb1fe, 0x9bdc06a7, 0xc19bf174,
  0xe49b69c1, 0xefbe4786, 0x0fc19dc6, 0x240ca1cc, 0x2de92c6f, 0x4a7484aa, 0x5cb0a9dc, 0x76f988da,
  0x983e5152, 0xa831c66d, 0xb00327c8, 0xbf597fc7, 0xc6e00bf3, 0xd5a79147, 0x06ca6351, 0x14292967,
  0x27b70a85, 0x2e1b2138, 0x4d2c6dfc, 0x53380d13, 0x650a7354, 0x766a0abb, 0x81c2c92e, 0x92722c85,
  0xa2bfe8a1, 0xa81a664b, 0xc24b8b70, 0xc76c51a3, 0xd192e819, 0xd6990624, 0xf40e3585, 0x106aa070,
  0x19a4c116, 0x1e376c08, 0x2748774c, 0x34b0bcb5, 0x391c0cb3, 0x4ed8aa4a, 0x5b9cca4f, 0x682e6ff3,
  0x748f82ee, 0x78a5636f, 0x84c87814, 0x8cc70208, 0x90befffa, 0xa4506ceb, 0xbef9a3f7, 0xc67178f2]

structure State where
  a : UInt32
  b : UInt32
  c : UInt32
  d : UInt32
  e : UInt32
  f : UInt32
  g : UInt32
  h : UInt32

def State.start : State :=
  ⟨0x6a09e667, 0xbb67ae85, 0x3c6ef372, 0xa54ff53a, 0x510e527f, 0x9b05688c, 0x1f83d9ab,
    0x5be0cd19⟩

def State.add (s t : State) : State :=
  ⟨s.a + t.a, s.b + t.b, s.c + t.c, s.d + t.d, s.e + t.e, s.f + t.f, s.g + t.g, s.h + t.h⟩

def rotate (x : UInt32) (n : UInt32) : UInt32 := (x >>> n) ||| (x <<< (32 - n))

def State.round (s : State) (constant word : UInt32) : State :=
  let sum1 := rotate s.e 6 ^^^ rotate s.e 11 ^^^ rotate s.e 25
  let choice := (s.e &&& s.f) ^^^ (~~~s.e &&& s.g)
  let first := s.h + sum1 + choice + constant + word
  let sum0 := rotate s.a 2 ^^^ rotate s.a 13 ^^^ rotate s.a 22
  let majority := (s.a &&& s.b) ^^^ (s.a &&& s.c) ^^^ (s.b &&& s.c)
  ⟨first + (sum0 + majority), s.a, s.b, s.c, s.d + first, s.e, s.f, s.g⟩

def extend : Nat → Array UInt32 → Array UInt32
  | 0, words => words
  | fuel + 1, words =>
    let earlier (back : Nat) := words.getD (words.size - back) 0
    let x := earlier 15
    let y := earlier 2
    let sigma0 := rotate x 7 ^^^ rotate x 18 ^^^ (x >>> 3)
    let sigma1 := rotate y 17 ^^^ rotate y 19 ^^^ (y >>> 10)
    extend fuel (words.push (earlier 16 + sigma0 + earlier 7 + sigma1))

def State.block (s : State) (words : List UInt32) : State :=
  let schedule := (extend 48 words.toArray).toList
  s.add ((roundConstants.zip schedule).foldl (fun t kw => t.round kw.1 kw.2) s)

/-- One bit, then zeros up to eight bytes short of a block, then the length in bits. -/
def padded (bytes : ByteArray) : List UInt8 :=
  let bits := bytes.size * 8
  let fill : List UInt8 := List.replicate ((119 - bytes.size % 64) % 64) 0
  let length : List UInt8 := (List.range 8).map fun i => UInt8.ofNat (bits >>> (8 * (7 - i)))
  bytes.toList ++ [(0x80 : UInt8)] ++ fill ++ length

def wordsOf : List UInt8 → List UInt32
  | w :: x :: y :: z :: rest =>
    (w.toUInt32 <<< 24 ||| x.toUInt32 <<< 16 ||| y.toUInt32 <<< 8 ||| z.toUInt32) :: wordsOf rest
  | _ => []

def blocks : Nat → List UInt32 → List (List UInt32)
  | 0, _ => []
  | _, [] => []
  | fuel + 1, words => words.take 16 :: blocks fuel (words.drop 16)

def hexDigits (word : UInt32) : String :=
  String.ofList ((List.range 8).map fun i =>
    Nat.digitChar ((word >>> (28 - 4 * UInt32.ofNat i)) &&& 15).toNat)

def digest (text : String) : String :=
  let words := wordsOf (padded text.toUTF8)
  let s := (blocks words.length words).foldl State.block State.start
  String.join ([s.a, s.b, s.c, s.d, s.e, s.f, s.g, s.h].map hexDigits)

end ProceduralScene.Sha256
