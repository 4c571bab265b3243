import ProceduralScene.Draw
import ProceduralScene.Proofs.Binary64.Arithmetic

/-! A draw is its hash over `2 ^ 53`. A hash is a double as it stands, and dividing it by a power of
two changes its exponent only; so nothing is rounded on the way, and no hash is drawn as one. -/
namespace ProceduralScene

namespace Binary64

open Float.Model Float.Model.UnpackedFloat

/-! A number of at most 53 bits, times a power of two. -/

theorem isDouble_scaled {m k : ℕ} (short : m < 2 ^ 53) (near : k ≤ 2045) :
    IsDouble (m * 2 ^ k) := by
  have magnitude : |(m : ℤ)| < 2 ^ 53 := by
    rw [abs_of_nonneg (by positivity)]
    exact_mod_cast short
  refine .of_multiple magnitude ?_
  rw [abs_of_nonneg (by positivity)]
  exact (lt_overflow_of_near short near).le

theorem isFinite_of_scaled {x : Float} {m k : ℕ} (count : units x = m * 2 ^ k)
    (short : m < 2 ^ 53) (near : k ≤ 2045) : x.isFinite = true := by
  rw [isFinite_iff, count, abs_of_nonneg (by positivity)]
  exact lt_overflow_of_near short near

theorem units_word {w : UInt64} (short : w.toNat < 2 ^ 53) :
    units w.toFloat = w.toNat * 2 ^ 1074 := by
  have value : ((w.toNat : ℤ) : ℚ) * 2 ^ ((0 : ℤ) + 1074) = ((w.toNat * 2 ^ 1074 : ℤ) : ℚ) := by
    rw [zero_add, Int.cast_mul, Int.cast_pow, Int.cast_ofNat, zpow_ofNat]
  change units (.ofModel (.pack (UnpackedFloat.normalize .binary64 w.toNat 0 .positive))) = _
  rw [units_pack (denotes_normalize _ _ _ value)]
  exact isDouble_scaled short (by norm_num)

theorem units_toFloat {n : ℕ} (short : n < 2 ^ 53) : units n.toFloat = n * 2 ^ 1074 := by
  have word : n.toUInt64.toNat = n := Nat.mod_eq_of_lt (by omega)
  have count := units_word (w := n.toUInt64) (by rwa [word])
  rw [word] at count
  -- a number of few digits is read as a word times a power of ten, which is one here
  have read : n.toFloat = n.toUInt64.toFloat * Float.exactlyRepresentablePowersOfTen[0] := by
    change Float.ofScientific n false 0 = _
    rw [Float.ofScientific, dif_pos ⟨short, Nat.zero_le 22⟩]
    rfl
  have one : units Float.exactlyRepresentablePowersOfTen[0] = 2 ^ 1074 := by decide +kernel
  rw [read, units_mul (isFinite_of_scaled count short (by norm_num)) (by decide +kernel), count,
    one, Int.cast_pow, Int.cast_ofNat, mul_div_assoc, div_self (by positivity), mul_one]
  exact isDouble_scaled short (by norm_num)

end Binary64

namespace Draw

open Binary64

theorem units_unit {hash : ℕ} (below : hash < range) : units (unit hash) = hash * 2 ^ 1021 := by
  have count := units_toFloat below
  have whole : units (Nat.toFloat range) = 2 ^ 1127 := by decide +kernel
  have quotient : ((hash * 2 ^ 1074 : ℤ) : ℚ) * 2 ^ 1074 / ((2 ^ 1127 : ℤ) : ℚ) =
      ((hash * 2 ^ 1021 : ℤ) : ℚ) := by
    rw [Int.cast_mul, Int.cast_mul, Int.cast_pow, Int.cast_pow, Int.cast_pow, Int.cast_ofNat,
      div_eq_iff (by positivity), mul_assoc, mul_assoc, ← pow_add, ← pow_add]
  rw [unit, units_div (isFinite_of_scaled count below (by norm_num)) (by decide +kernel)
    (by rw [whole]; positivity), count, whole, quotient]
  exact isDouble_scaled below (by norm_num)

theorem unit_nonneg {hash : ℕ} (below : hash < range) : 0 ≤ unit hash := by
  have finite := isFinite_of_scaled (units_unit below) below (by norm_num)
  rw [le_iff, units_zero]
  refine ⟨?_, number_of_finite finite⟩
  rw [units_unit below]
  positivity

theorem unit_lt_one {hash : ℕ} (below : hash < range) : unit hash < 1 := by
  rw [lt_iff, units_unit below]
  refine ⟨?_, number_of_finite (by decide +kernel)⟩
  calc (hash * 2 ^ 1021 : ℤ) < 2 ^ 53 * 2 ^ 1021 := by
        gcongr
        exact_mod_cast below
    _ = units 1 := by rw [← pow_add, units_one]

end Draw
end ProceduralScene
