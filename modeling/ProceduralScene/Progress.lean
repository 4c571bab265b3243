import ProceduralScene.Binary64

/-! How far a value has advanced, such as simulated seconds. A progress is the bits of a double,
and all bits are told apart: the order goes from the NaNs with a sign over the infinities, the
numbers and both zeros up to the NaNs without one. It decides what runs next and when a slice
ends. -/
namespace ProceduralScene

structure Progress where
  bits : UInt64
  deriving DecidableEq, Inhabited

namespace Progress

def ofFloat (x : Float) : Progress := ⟨x.toBits⟩

/-- The double to calculate with; there all NaNs are one. -/
def value (p : Progress) : Float := .ofBits p.bits

instance (n : Nat) : OfNat Progress n := ⟨ofFloat (.ofNat n)⟩

/-- The progress of values that do not advance over time. -/
def static : Progress := ofFloat (-1)

def rank (p : Progress) : UInt64 := Binary64.rank p.bits

instance : LE Progress := ⟨fun a b => a.rank ≤ b.rank⟩
instance : LT Progress := ⟨fun a b => a.rank < b.rank⟩
instance (a b : Progress) : Decidable (a ≤ b) := inferInstanceAs (Decidable (a.rank ≤ b.rank))
instance (a b : Progress) : Decidable (a < b) := inferInstanceAs (Decidable (a.rank < b.rank))

theorem le_refl (a : Progress) : a ≤ a := UInt64.le_refl a.rank

theorem le_trans {a b c : Progress} (ab : a ≤ b) (bc : b ≤ c) : a ≤ c := UInt64.le_trans ab bc

theorem le_total (a b : Progress) : a ≤ b ∨ b ≤ a := UInt64.le_total a.rank b.rank

theorem not_le {a b : Progress} : ¬a ≤ b ↔ b < a := UInt64.not_le

def compare (a b : Progress) : Ordering := Ord.compare a.rank b.rank

def furthest (a b : Progress) : Progress := if a < b then b else a

end Progress
end ProceduralScene
