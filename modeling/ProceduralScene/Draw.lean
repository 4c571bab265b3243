import ProceduralScene.Text.Units16

/-! Every random decision is a draw keyed by a text. The key is hashed to 53 bits, which are
read as a fraction of `2 ^ 53`; equal keys therefore draw equal numbers, and no generator
state exists. -/
namespace ProceduralScene.Draw

structure State where
  first : UInt32
  second : UInt32
  deriving DecidableEq

def State.start (seed : UInt32) : State :=
  ⟨0xdeadbeef ^^^ seed, 0x41c6ce57 ^^^ seed⟩

def State.absorb (s : State) (unit : UInt16) : State :=
  ⟨(s.first ^^^ unit.toUInt32) * 2654435761, (s.second ^^^ unit.toUInt32) * 1597334677⟩

def mix (own other : UInt32) : UInt32 :=
  (own ^^^ (own >>> 16)) * (2246822507 : UInt32)
    ^^^ (other ^^^ (other >>> 13)) * (3266489909 : UInt32)

/-- Mixes each word with the other one, the second with the result of the first. -/
def State.finish (s : State) : State :=
  let first := mix s.first s.second
  ⟨first, mix s.second first⟩

def mixed (seed : UInt32) (text : String) : State :=
  ((Text.units16 text).foldl State.absorb (State.start seed)).finish

def range : Nat := 9007199254740992

def State.toNat53 (s : State) : Nat :=
  (s.second &&& 0x1fffff).toNat * UInt32.size + s.first.toNat

theorem State.toNat53_lt (s : State) : s.toNat53 < range := by
  have low : s.first.toNat < 4294967296 := s.first.toNat_lt
  have high : (s.second &&& 0x1fffff).toNat ≤ 0x1fffff := by
    rw [UInt32.toNat_and]
    exact Nat.and_le_right
  simp only [State.toNat53, UInt32.size, range]
  omega

def hash53 (seed : UInt32) (text : String) : Nat := (mixed seed text).toNat53

def unit (hash : Nat) : Float := hash.toFloat / range.toFloat

def draw (key : String) : Float := unit (hash53 0 key)

end ProceduralScene.Draw
