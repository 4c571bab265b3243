import Mathlib
import ProceduralScene.Progress
import ProceduralScene.Proofs.Binary64.Rounding

/-! What the bits of a double stand for, counted in units of `2 ^ -1074`. The order of doubles is
the order of these counts; an infinity counts as what the first power of two past the finite
doubles would, and NaN as more. -/
namespace ProceduralScene.Binary64

open Float.Model Float.Model.UnpackedFloat

/-- The count of units of a double. -/
def units (x : Float) : ℤ :=
  let d := dyadic x
  let magnitude := Int.ofNat d.mantissa * 2 ^ (d.exponent + 1074).toNat
  if d.negative then -magnitude else magnitude

def magnitude (bits : ℕ) : ℕ :=
  if bits / 2 ^ 52 = 0 then bits else (bits % 2 ^ 52 + 2 ^ 52) * 2 ^ (bits / 2 ^ 52 - 1)

theorem magnitude_lt (bits : ℕ) : magnitude bits < 2 ^ (52 + bits / 2 ^ 52) := by
  unfold magnitude
  split_ifs with subnormal
  · rw [subnormal]
    omega
  · obtain ⟨scale, eq⟩ := Nat.exists_eq_succ_of_ne_zero subnormal
    rw [eq, Nat.succ_sub_one, show 52 + scale.succ = 53 + scale by omega, pow_add]
    gcongr
    omega

theorem le_magnitude {bits : ℕ} (normal : bits / 2 ^ 52 ≠ 0) :
    2 ^ (51 + bits / 2 ^ 52) ≤ magnitude bits := by
  obtain ⟨scale, eq⟩ := Nat.exists_eq_succ_of_ne_zero normal
  rw [magnitude, if_neg normal, eq, Nat.succ_sub_one, show 51 + scale.succ = 52 + scale by omega,
    pow_add]
  gcongr
  omega

theorem magnitude_strictMono : StrictMono magnitude := by
  intro a b less
  rcases (Nat.div_le_div_right less.le : a / 2 ^ 52 ≤ b / 2 ^ 52).eq_or_lt with same | finer
  · unfold magnitude
    rw [← same]
    split_ifs with subnormal
    · exact less
    · gcongr
      omega
  · calc magnitude a < 2 ^ (52 + a / 2 ^ 52) := magnitude_lt a
      _ ≤ 2 ^ (51 + b / 2 ^ 52) := Nat.pow_le_pow_right (by norm_num) (by omega)
      _ ≤ magnitude b := le_magnitude (by omega)

@[simp] theorem magnitude_zero : magnitude 0 = 0 := rfl

theorem signed_iff (bits : UInt64) : (bits >>> 63 == 1) = true ↔ 2 ^ 63 ≤ bits.toNat := by
  have := bits.toNat_lt
  rw [beq_iff_eq, ← UInt64.toNat_inj, UInt64.toNat_shiftRight, Nat.shiftRight_eq_div_pow]
  change bits.toNat / 2 ^ 63 = 1 ↔ _
  omega

theorem dyadic_eq (x : Float) :
    dyadic x =
      if x.toBits.toNat / 2 ^ 52 % 2048 = 0 then ⟨isNegative x, x.toBits.toNat % 2 ^ 52, -1074⟩
      else ⟨isNegative x, x.toBits.toNat % 2 ^ 52 + 2 ^ 52,
        Int.ofNat (x.toBits.toNat / 2 ^ 52 % 2048) - 1075⟩ :=
  rfl

theorem dyadic_magnitude (x : Float) :
    (dyadic x).mantissa * 2 ^ ((dyadic x).exponent + 1074).toNat =
      magnitude (x.toBits.toNat % 2 ^ 63) := by
  have scale : x.toBits.toNat % 2 ^ 63 / 2 ^ 52 = x.toBits.toNat / 2 ^ 52 % 2048 := by omega
  have fraction : x.toBits.toNat % 2 ^ 63 % 2 ^ 52 = x.toBits.toNat % 2 ^ 52 := by omega
  rw [dyadic_eq, magnitude, scale, fraction]
  split_ifs with subnormal
  · change x.toBits.toNat % 2 ^ 52 * 2 ^ 0 = _
    omega
  · congr 2
    change (Int.ofNat (x.toBits.toNat / 2 ^ 52 % 2048) - 1075 + 1074).toNat = _
    rw [Int.ofNat_eq_natCast]
    omega

theorem units_eq (x : Float) :
    units x = if 2 ^ 63 ≤ x.toBits.toNat then -(magnitude (x.toBits.toNat - 2 ^ 63) : ℤ)
      else magnitude x.toBits.toNat := by
  have bound := x.toBits.toNat_lt
  have sign : (dyadic x).negative = isNegative x := by
    rw [dyadic_eq]
    split_ifs <;> rfl
  have size := congrArg (Nat.cast (R := ℤ)) (dyadic_magnitude x)
  rw [Nat.cast_mul, Nat.cast_pow, Nat.cast_ofNat] at size
  simp only [units, Int.ofNat_eq_natCast, size, sign, isNegative, signed_iff]
  split_ifs with negative
  · rw [show x.toBits.toNat % 2 ^ 63 = x.toBits.toNat - 2 ^ 63 by omega]
  · rw [Nat.mod_eq_of_lt (by omega)]

theorem rank_toNat (bits : UInt64) :
    (rank bits).toNat = if 2 ^ 63 ≤ bits.toNat then 2 ^ 64 - 1 - bits.toNat
      else bits.toNat + 2 ^ 63 := by
  unfold rank
  simp only [signed_iff]
  split_ifs with negative
  · rw [UInt64.toNat_not]
    rfl
  · rw [UInt64.toNat_or, Nat.or_comm]
    have apart := Nat.two_pow_add_eq_or_of_lt (not_le.mp negative) 1
    rw [mul_one] at apart
    exact apart.symm.trans (Nat.add_comm _ _)

theorem rank_injective : Function.Injective rank := by
  intro a b same
  have ha := a.toNat_lt
  have hb := b.toNat_lt
  rw [← UInt64.toNat_inj, rank_toNat, rank_toNat] at same
  rw [← UInt64.toNat_inj]
  split_ifs at same <;> omega

theorem rank_lt_of_units_lt {x y : Float} (less : units x < units y) :
    rank x.toBits < rank y.toBits := by
  have hx := x.toBits.toNat_lt
  have hy := y.toBits.toNat_lt
  rw [units_eq, units_eq] at less
  rw [UInt64.lt_iff_toNat_lt, rank_toNat, rank_toNat]
  split_ifs at less ⊢ with negative negative'
  · have := magnitude_strictMono.lt_iff_lt.mp (show magnitude (y.toBits.toNat - 2 ^ 63) <
      magnitude (x.toBits.toNat - 2 ^ 63) by omega)
    omega
  · omega
  · omega
  · have := magnitude_strictMono.lt_iff_lt.mp (show magnitude x.toBits.toNat <
      magnitude y.toBits.toNat by omega)
    omega

theorem eq_of_units_eq {x y : Float} (same : units x = units y) (nonzero : units x ≠ 0) :
    x = y := by
  have hx := x.toBits.toNat_lt
  have hy := y.toBits.toNat_lt
  rw [units_eq, units_eq] at same
  rw [units_eq] at nonzero
  rw [← Float.toBits_inj, ← UInt64.toNat_inj]
  split_ifs at same nonzero with negative negative'
  · have := magnitude_strictMono.injective (show magnitude (x.toBits.toNat - 2 ^ 63) =
      magnitude (y.toBits.toNat - 2 ^ 63) by omega)
    omega
  · omega
  · omega
  · exact magnitude_strictMono.injective (by omega)

/-! Packing and unpacking take the three fields of the bits apart. -/

theorem toNat_unpackMantissa (b : BitVec Format.binary64.numBits) :
    (unpackMantissa b).toNat = b.toNat % 2 ^ 52 := by
  simp only [unpackMantissa, BitVec.toNat_cast, BitVec.extractLsb_toNat, Nat.shiftRight_zero]

theorem toNat_unpackExponent (b : BitVec Format.binary64.numBits) :
    (unpackExponent b).toNat = b.toNat / 2 ^ 52 % 2 ^ 11 := by
  simp only [unpackExponent, BitVec.toNat_cast, BitVec.extractLsb_toNat, Nat.shiftRight_eq_div_pow]

theorem toNat_unpackSign (b : BitVec Format.binary64.numBits) :
    (unpackSign b).toNat = b.toNat / 2 ^ 63 := by
  have := b.isLt
  simp only [unpackSign, BitVec.toNat_cast, BitVec.extractLsb_toNat, Nat.shiftRight_eq_div_pow]
  change b.toNat / 2 ^ 63 % 2 ^ 1 = b.toNat / 2 ^ 63
  change b.toNat < 2 ^ 64 at this
  omega

theorem magnitude_subnormal {f : ℕ} (short : f < 2 ^ 52) : magnitude f = f :=
  if_pos (by omega)

theorem magnitude_normal {f : ℕ} (k : ℕ) (short : f < 2 ^ 52) :
    magnitude ((k + 1) * 2 ^ 52 + f) = (f + 2 ^ 52) * 2 ^ k := by
  unfold magnitude
  rw [show ((k + 1) * 2 ^ 52 + f) / 2 ^ 52 = k + 1 by omega,
    show ((k + 1) * 2 ^ 52 + f) % 2 ^ 52 = f by omega, if_neg (by omega), Nat.add_sub_cancel]

def fieldUnits (b : BitVec Format.binary64.numBits) : ℤ :=
  (Sign.ofBitVec (unpackSign b)).apply
    (magnitude ((unpackExponent b).toNat * 2 ^ 52 + (unpackMantissa b).toNat))

theorem units_eq_fieldUnits (x : Float) : units x = fieldUnits x.toBits.toBitVec := by
  have bound := x.toBits.toNat_lt
  have sign := toNat_unpackSign x.toBits.toBitVec
  rw [fieldUnits, toNat_unpackMantissa, toNat_unpackExponent, units_eq]
  rw [UInt64.toNat_toBitVec] at sign ⊢
  split_ifs with negative
  · have : @unpackSign Format.binary64 x.toBits.toBitVec = 1#1 := by
      rw [← BitVec.toNat_inj, sign]
      change _ = 1
      omega
    rw [this, show x.toBits.toNat / 2 ^ 52 % 2 ^ 11 * 2 ^ 52 + x.toBits.toNat % 2 ^ 52 =
      x.toBits.toNat - 2 ^ 63 by omega]
    rfl
  · have : @unpackSign Format.binary64 x.toBits.toBitVec = 0#1 := by
      rw [← BitVec.toNat_inj, sign]
      change _ = 0
      omega
    rw [this, show x.toBits.toNat / 2 ^ 52 % 2 ^ 11 * 2 ^ 52 + x.toBits.toNat % 2 ^ 52 =
      x.toBits.toNat by omega]
    rfl

theorem fieldUnits_packComponents (s : Sign) (e : BitVec Format.binary64.exponentBits)
    (m : BitVec Format.binary64.mantissaBitsWithoutImplicit) :
    fieldUnits (packComponents Format.binary64 s e m) =
      s.apply (magnitude (e.toNat * 2 ^ 52 + m.toNat)) := by
  rw [fieldUnits, unpackSign_packComponents, Sign.ofBitVec_toBitVec, unpackExponent_packComponents,
    unpackMantissa_packComponents]

theorem toNat_ones : (-BitVec.ofNat Format.binary64.exponentBits 1).toNat = 2046 + 1 := by decide

theorem fieldUnits_packedInfinity (s : Sign) :
    fieldUnits (packedInfinity Format.binary64 s) = s.apply overflow := by
  have none : (0 : BitVec Format.binary64.mantissaBitsWithoutImplicit).toNat = 0 := by decide
  rw [packedInfinity, fieldUnits_packComponents, toNat_ones, none,
    magnitude_normal 2046 (by norm_num), zero_add, ← pow_add, Nat.cast_pow, Nat.cast_ofNat,
    overflow]

theorem overflow_lt_packedNaN : overflow < fieldUnits (packedNaN Format.binary64) := by
  have payload : (BitVec.ofNat Format.binary64.mantissaBitsWithoutImplicit 1 <<<
    (Format.binary64.mantissaBitsWithoutImplicit - 1)).toNat = 2 ^ 51 := by decide
  rw [packedNaN, fieldUnits_packComponents, toNat_ones, payload,
    magnitude_normal 2046 (by norm_num)]
  calc overflow = 2 ^ 52 * 2 ^ 2046 := pow_add 2 52 2046
    _ < (2 ^ 51 + 2 ^ 52) * 2 ^ 2046 := by
        gcongr
        norm_num
    _ = _ := by
        rw [Sign.apply, Nat.cast_mul, Nat.cast_add, Nat.cast_pow, Nat.cast_pow, Nat.cast_pow,
          Nat.cast_ofNat]

/-- A finite unpacked number in the form that packing expects, and its count of units. -/
inductive Denotes : UnpackedFloat → ℤ → Prop
  | zero (s : Sign) : Denotes (.zero s) 0
  | finite (s : Sign) {m k : ℕ} {e : ℤ} (positive : 0 < m) (exponent : e = k - 1074)
      (short : m < 2 ^ 53) (normal : 2 ^ 52 ≤ m ∨ k = 0) :
      Denotes (.finite s m e positive) (s.apply (m * 2 ^ k))

inductive Reads : UnpackedFloat → ℤ → Prop
  | notANumber {n : ℤ} (past : overflow < n) : Reads .notANumber n
  | infinity (s : Sign) : Reads (.infinity s) (s.apply overflow)
  | finite {u : UnpackedFloat} {n : ℤ} (denotes : Denotes u n) (inside : |n| < overflow) : Reads u n

theorem abs_apply (s : Sign) (n : ℤ) : |s.apply n| = |n| := by
  cases s
  · exact abs_neg n
  · rfl

theorem lt_overflow_of_near {m k : ℕ} (short : m < 2 ^ 53) (near : k ≤ 2045) :
    (m * 2 ^ k : ℤ) < overflow :=
  calc (m * 2 ^ k : ℤ) < 2 ^ 53 * 2 ^ k := by
        gcongr
        exact_mod_cast short
    _ ≤ 2 ^ 53 * 2 ^ 2045 := by
        gcongr
        norm_num
    _ = overflow := (pow_add 2 53 2045).symm

theorem overflow_le_of_far {m k : ℕ} (normal : 2 ^ 52 ≤ m) (far : 2046 ≤ k) :
    overflow ≤ (m * 2 ^ k : ℤ) :=
  calc overflow = 2 ^ 52 * 2 ^ 2046 := pow_add 2 52 2046
    _ ≤ 2 ^ 52 * 2 ^ k := by
        gcongr
        norm_num
    _ ≤ (m * 2 ^ k : ℤ) := by
        gcongr
        exact_mod_cast normal

theorem clamp_of_past (s : Sign) {n : ℤ} (past : overflow ≤ n) :
    clamp (s.apply n) = s.apply overflow := by
  have := overflow_pos
  unfold clamp
  cases s <;> simp only [Sign.apply] <;> omega

theorem fieldUnits_pack {u : UnpackedFloat} {n : ℤ} (denotes : Denotes u n) :
    fieldUnits (UnpackedFloat.pack Format.binary64 u) = clamp n := by
  cases denotes with
  | zero s =>
    have := overflow_pos
    rw [clamp_of_inside (by simpa using this.le)]
    refine (fieldUnits_packComponents s 0 0).trans ?_
    change s.apply (magnitude 0 : ℕ) = 0
    rw [magnitude_zero]
    cases s <;> rfl
  | @finite s m k e positive exponent short normal =>
    have biased : (e + (Format.binary64.exponentBias : ℕ) +
        (Format.binary64.mantissaBitsWithoutImplicit : ℕ)).toNat = k + 1 := by
      change (e + 1023 + 52).toNat = k + 1
      omega
    have normalized : m.log2 + 1 = Format.binary64.mantissaBits ↔ 2 ^ 52 ≤ m := by
      change m.log2 + 1 = 53 ↔ _
      rw [← Nat.le_log2 positive.ne']
      have := (Nat.log2_lt positive.ne').mpr short
      omega
    have inside (near : k ≤ 2045) : clamp (s.apply (m * 2 ^ k)) = s.apply (m * 2 ^ k) := by
      refine clamp_of_inside ?_
      rw [abs_apply, abs_of_nonneg (by positivity)]
      exact (lt_overflow_of_near short near).le
    simp only [UnpackedFloat.pack, biased, normalized]
    split_ifs with infinite leading
    · rw [fieldUnits_packedInfinity, clamp_of_past s (overflow_le_of_far (by omega) (by omega))]
    · rw [fieldUnits_packComponents, inside (by omega), BitVec.toNat_ofNat, BitVec.toNat_ofNat,
        Nat.mod_eq_of_lt (show k + 1 < 2 ^ 11 by omega),
        show m % 2 ^ 52 = m - 2 ^ 52 by omega, magnitude_normal k (by omega),
        Nat.sub_add_cancel leading, Nat.cast_mul, Nat.cast_pow, Nat.cast_ofNat]
    · obtain rfl : k = 0 := by omega
      rw [fieldUnits_packComponents, inside (by omega), BitVec.toNat_ofNat, BitVec.toNat_ofNat,
        Nat.zero_mod, Nat.zero_mul, Nat.zero_add, Nat.mod_eq_of_lt (show m < 2 ^ 52 by omega),
        magnitude_subnormal (by omega), pow_zero, mul_one]

theorem units_pack {u : UnpackedFloat} {n : ℤ} (denotes : Denotes u n) :
    units (.ofModel (.pack u)) = clamp n := by
  rw [units_eq_fieldUnits]
  exact fieldUnits_pack denotes

theorem reads_fieldUnits {b : BitVec Format.binary64.numBits} (valid : Format.binary64.Valid b) :
    Reads (UnpackedFloat.unpack Format.binary64 b) (fieldUnits b) := by
  have short : (unpackMantissa b).toNat < 2 ^ 52 := (unpackMantissa b).isLt
  have bound : (unpackExponent b).toNat < 2 ^ 11 := (unpackExponent b).isLt
  unfold UnpackedFloat.unpack
  simp only
  split_ifs with full none lowest none'
  · have infinite : fieldUnits b = (Sign.ofBitVec (unpackSign b)).apply overflow := by
      rw [← fieldUnits_packedInfinity, packedInfinity, fieldUnits_packComponents, fieldUnits, full,
        none]
      rfl
    rw [infinite]
    exact .infinity _
  · rw [valid.eq_packedNaN full none]
    exact .notANumber overflow_lt_packedNaN
  · have zero : fieldUnits b = 0 := by
      rw [fieldUnits, lowest, none']
      change Sign.apply _ (magnitude 0 : ℕ) = 0
      rw [magnitude_zero]
      cases Sign.ofBitVec (unpackSign b) <;> rfl
    rw [zero]
    exact .finite (.zero _) (by simpa using overflow_pos)
  · have value : fieldUnits b =
        (Sign.ofBitVec (unpackSign b)).apply ((unpackMantissa b).toNat * 2 ^ 0) := by
      rw [fieldUnits, lowest]
      change Sign.apply _ (magnitude (0 * 2 ^ 52 + _) : ℕ) = _
      rw [zero_mul, zero_add, magnitude_subnormal short, pow_zero, mul_one]
    rw [value]
    refine .finite (.finite _ _ ?_ (by omega) (.inr rfl)) ?_
    · rw [lowest]
      rfl
    · rw [abs_apply, abs_of_nonneg (by positivity)]
      exact lt_overflow_of_near (by omega) (by norm_num)
  · rw [← BitVec.toNat_inj, toNat_ones] at full
    rw [← BitVec.toNat_inj] at lowest
    obtain ⟨k, scale⟩ := Nat.exists_eq_succ_of_ne_zero lowest
    have leading : (1#1 ++ unpackMantissa b).toNat = (unpackMantissa b).toNat + 2 ^ 52 := by
      rw [BitVec.toNat_append, ← Nat.shiftLeft_add_eq_or_of_lt short, Nat.add_comm]
      rfl
    have value : fieldUnits b =
        (Sign.ofBitVec (unpackSign b)).apply ((1#1 ++ unpackMantissa b).toNat * 2 ^ k) := by
      rw [fieldUnits, scale, magnitude_normal k short, leading, Nat.cast_mul, Nat.cast_pow,
        Nat.cast_ofNat]
    rw [value]
    refine .finite (.finite _ _ ?_ (by omega) (.inl (by omega))) ?_
    · rw [scale]
      change ((k + 1 : ℕ) : ℤ) - (1023 + 52) = k - 1074
      omega
    · rw [abs_apply, abs_of_nonneg (by positivity)]
      exact lt_overflow_of_near (by omega) (by omega)

theorem reads_unpack (x : Float) : Reads x.toModel.unpack (units x) := by
  rw [units_eq_fieldUnits]
  exact reads_fieldUnits x.toModel.valid

/-! Comparisons. -/

theorem lt_of_exponent_lt {m k m' k' : ℕ} (short : m < 2 ^ 53) (normal : 2 ^ 52 ≤ m' ∨ k' = 0)
    (less : k < k') : (m * 2 ^ k : ℤ) < m' * 2 ^ k' :=
  calc (m * 2 ^ k : ℤ) < 2 ^ 53 * 2 ^ k := by
        gcongr
        exact_mod_cast short
    _ = 2 ^ 52 * 2 ^ (k + 1) := by ring
    _ ≤ m' * 2 ^ k' := by
        gcongr
        · exact_mod_cast normal.resolve_right (by omega)
        · norm_num
        · exact less

theorem compare_positive {m k m' k' : ℕ} {e e' : ℤ} (exponent : e = k - 1074)
    (exponent' : e' = k' - 1074) (short : m < 2 ^ 53) (short' : m' < 2 ^ 53)
    (normal : 2 ^ 52 ≤ m ∨ k = 0) (normal' : 2 ^ 52 ≤ m' ∨ k' = 0) :
    (compare e e').then (compare m m') = compare (m * 2 ^ k : ℤ) (m' * 2 ^ k') := by
  rcases lt_trichotomy k k' with less | rfl | greater
  · rw [compare_lt_iff_lt.mpr (show e < e' by omega),
      compare_lt_iff_lt.mpr (lt_of_exponent_lt short normal' less)]
    rfl
  · obtain rfl : e = e' := by omega
    have scale : (0 : ℤ) < 2 ^ k := by positivity
    rw [compare_eq_iff_eq.mpr rfl, Ordering.eq_then]
    rcases lt_trichotomy m m' with less | rfl | greater
    · rw [compare_lt_iff_lt.mpr less, compare_lt_iff_lt.mpr]
      exact mul_lt_mul_of_pos_right (by exact_mod_cast less) scale
    · rw [compare_eq_iff_eq.mpr rfl, compare_eq_iff_eq.mpr rfl]
    · rw [compare_gt_iff_gt.mpr greater, compare_gt_iff_gt.mpr]
      exact mul_lt_mul_of_pos_right (by exact_mod_cast greater) scale
  · rw [compare_gt_iff_gt.mpr (show e > e' by omega),
      compare_gt_iff_gt.mpr (lt_of_exponent_lt short' normal greater)]
    rfl

theorem compare_neg_neg (a b : ℤ) : compare (-a) (-b) = (compare a b).swap := by
  rw [Int.compare_swap]
  rcases lt_trichotomy a b with less | rfl | greater
  · rw [compare_gt_iff_gt.mpr less, compare_gt_iff_gt.mpr (neg_lt_neg less)]
  · rw [compare_eq_iff_eq.mpr rfl, compare_eq_iff_eq.mpr rfl]
  · rw [compare_lt_iff_lt.mpr greater, compare_lt_iff_lt.mpr (neg_lt_neg greater)]

theorem Denotes.compare {u v : UnpackedFloat} {a b : ℤ} (left : Denotes u a) (right : Denotes v b) :
    u.compare v = some (compare a b) := by
  have above {m k : ℕ} (h : 0 < m) : (0 : ℤ) < m * 2 ^ k := by positivity
  have below {m k : ℕ} (h : 0 < m) : -(m * 2 ^ k : ℤ) < 0 := neg_neg_of_pos (above h)
  cases left with
  | zero s =>
    cases right with
    | zero s' => rfl
    | finite s' h exponent short normal =>
      cases s' with
      | positive => exact congrArg some (compare_lt_iff_lt.mpr (above h)).symm
      | negative => exact congrArg some (compare_gt_iff_gt.mpr (below h)).symm
  | finite s h exponent short normal =>
    cases right with
    | zero s' =>
      cases s with
      | positive => exact congrArg some (compare_gt_iff_gt.mpr (above h)).symm
      | negative => exact congrArg some (compare_lt_iff_lt.mpr (below h)).symm
    | finite s' h' exponent' short' normal' =>
      have order := compare_positive exponent exponent' short short' normal normal'
      cases s <;> cases s'
      · exact congrArg some ((congrArg Ordering.swap order).trans (compare_neg_neg _ _).symm)
      · exact congrArg some (compare_lt_iff_lt.mpr ((below h).trans (above h'))).symm
      · exact congrArg some (compare_gt_iff_gt.mpr ((below h').trans (above h))).symm
      · exact congrArg some order

theorem Reads.compare {u v : UnpackedFloat} {a b : ℤ} (left : Reads u a) (right : Reads v b)
    (number : a ≤ overflow) (number' : b ≤ overflow) : u.compare v = some (compare a b) := by
  have pos := overflow_pos
  cases left with
  | notANumber past => omega
  | infinity s =>
    cases right with
    | notANumber past => omega
    | infinity s' =>
      cases s <;> cases s' <;> refine congrArg some (Eq.symm ?_)
      · exact compare_eq_iff_eq.mpr rfl
      · exact compare_lt_iff_lt.mpr (show -overflow < overflow by omega)
      · exact compare_gt_iff_gt.mpr (show -overflow < overflow by omega)
      · exact compare_eq_iff_eq.mpr rfl
    | finite denotes inside =>
      have bounds := abs_lt.mp inside
      cases s with
      | positive =>
        rw [compare_gt_iff_gt.mpr (show b < Sign.positive.apply overflow from bounds.2)]
        cases denotes <;> rfl
      | negative =>
        rw [compare_lt_iff_lt.mpr (show Sign.negative.apply overflow < b from bounds.1)]
        cases denotes <;> rfl
  | finite denotes inside =>
    have bounds := abs_lt.mp inside
    cases right with
    | notANumber past => omega
    | infinity s =>
      cases s with
      | positive =>
        rw [compare_lt_iff_lt.mpr (show a < Sign.positive.apply overflow from bounds.2)]
        cases denotes with
        | zero _ => rfl
        | finite s _ => cases s <;> rfl
      | negative =>
        rw [compare_gt_iff_gt.mpr (show Sign.negative.apply overflow < a from bounds.1)]
        cases denotes with
        | zero _ => rfl
        | finite s _ => cases s <;> rfl
    | finite denotes' _ => exact denotes.compare denotes'

theorem Reads.isFinite_iff {u : UnpackedFloat} {n : ℤ} (reads : Reads u n) :
    u.isFinite = true ↔ |n| < overflow := by
  have pos := overflow_pos
  cases reads with
  | notANumber past => exact iff_of_false (by nofun) fun inside => by linarith [le_abs_self n]
  | infinity s =>
    refine iff_of_false (by nofun) ?_
    rw [abs_apply, abs_of_pos pos]
    exact lt_irrefl _
  | finite denotes inside =>
    cases denotes <;> exact iff_of_true rfl inside

theorem Reads.isNaN_iff {u : UnpackedFloat} {n : ℤ} (reads : Reads u n) :
    u.isNaN = true ↔ overflow < n := by
  have pos := overflow_pos
  cases reads with
  | notANumber past => exact iff_of_true rfl past
  | infinity s =>
    refine iff_of_false (by nofun) ?_
    cases s <;> simp only [Sign.apply] <;> omega
  | finite denotes inside =>
    have bounds := abs_lt.mp inside
    cases denotes <;> exact iff_of_false (by nofun) (by omega)

theorem Reads.denotes {u : UnpackedFloat} {n : ℤ} (reads : Reads u n) (inside : |n| < overflow) :
    Denotes u n := by
  have pos := overflow_pos
  cases reads with
  | notANumber past => linarith [le_abs_self n]
  | infinity s =>
    rw [abs_apply, abs_of_pos pos] at inside
    exact absurd inside (lt_irrefl _)
  | finite denotes _ => exact denotes

theorem Denotes.isDouble {u : UnpackedFloat} {n : ℤ} (denotes : Denotes u n)
    (inside : |n| ≤ overflow) : IsDouble n := by
  cases denotes with
  | zero s => exact isDouble_zero
  | @finite s m k e positive exponent short normal =>
    have short' : |(m : ℤ)| < 2 ^ 53 := by
      rw [abs_of_nonneg (by positivity)]
      exact_mod_cast short
    rw [abs_apply] at inside
    have double := IsDouble.of_multiple short' inside
    cases s with
    | positive => exact double
    | negative => exact double.neg

theorem Reads.isDouble {u : UnpackedFloat} {n : ℤ} (reads : Reads u n) (number : n ≤ overflow) :
    IsDouble n := by
  cases reads with
  | notANumber past => omega
  | infinity s =>
    cases s with
    | positive => exact isDouble_overflow
    | negative => exact isDouble_overflow.neg
  | finite denotes inside => exact denotes.isDouble inside.le

theorem Reads.compare_eq_none {u v : UnpackedFloat} {a b : ℤ} (left : Reads u a) (right : Reads v b)
    (past : overflow < a ∨ overflow < b) : u.compare v = none := by
  have pos := overflow_pos
  have only {w : UnpackedFloat} {n : ℤ} (reads : Reads w n) (past : overflow < n) :
      w = .notANumber := by
    cases reads with
    | notANumber _ => rfl
    | infinity s =>
      cases s <;> simp only [Sign.apply] at past <;> omega
    | finite _ inside => linarith [(abs_lt.mp inside).2]
  rcases past with past | past
  · rw [only left past]
    rfl
  · rw [only right past]
    cases u <;> rfl

variable {x y : Float}

theorem compare_unpack :
    x.toModel.unpack.compare y.toModel.unpack =
      if overflow < units x ∨ overflow < units y then none
      else some (compare (units x) (units y)) := by
  split_ifs with past
  · exact (reads_unpack x).compare_eq_none (reads_unpack y) past
  · exact (reads_unpack x).compare (reads_unpack y) (by omega) (by omega)

theorem le_iff : x ≤ y ↔ units x ≤ units y ∧ units y ≤ overflow := by
  change decide ((x.toModel.unpack.compare y.toModel.unpack).any (·.isLE) = true) = true ↔ _
  rw [decide_eq_true_iff, compare_unpack]
  split_ifs with past
  · simp only [Option.any_none, Bool.false_eq_true, false_iff]
    omega
  · rw [Option.any_some, Int.isLE_compare]
    omega

theorem le_trans {z : Float} (xy : x ≤ y) (yz : y ≤ z) : x ≤ z := by
  rw [le_iff] at *
  omega

theorem lt_iff : x < y ↔ units x < units y ∧ units y ≤ overflow := by
  change decide ((x.toModel.unpack.compare y.toModel.unpack == some .lt) = true) = true ↔ _
  rw [decide_eq_true_iff, compare_unpack, beq_iff_eq]
  split_ifs with past
  · refine iff_of_false (by nofun) (by omega)
  · rw [Option.some_inj, compare_lt_iff_lt]
    omega

theorem beq_iff : (x == y) = true ↔ units x = units y ∧ units y ≤ overflow := by
  change (x.toModel.unpack.compare y.toModel.unpack == some .eq) = true ↔ _
  rw [compare_unpack, beq_iff_eq]
  split_ifs with past
  · refine iff_of_false (by nofun) (by omega)
  · rw [Option.some_inj, compare_eq_iff_eq]
    omega

theorem isFinite_iff : x.isFinite = true ↔ |units x| < overflow :=
  (reads_unpack x).isFinite_iff

theorem isNaN_iff : x.isNaN = true ↔ overflow < units x :=
  (reads_unpack x).isNaN_iff

theorem denotes_unpack (finite : x.isFinite = true) : Denotes x.toModel.unpack (units x) :=
  (reads_unpack x).denotes (isFinite_iff.mp finite)

theorem isDouble_units (number : units x ≤ overflow) : IsDouble (units x) :=
  (reads_unpack x).isDouble number

theorem le_lesser_iff (number : units x ≤ overflow) : y ≤ lesser x y ↔ y ≤ x := by
  have real : x.isNaN ≠ true := by
    rw [ne_eq, isNaN_iff]
    omega
  unfold lesser
  rw [if_neg real]
  split_ifs with none less
  · rfl
  · rw [lt_iff] at less
    rw [le_iff, le_iff]
    omega
  · rfl

/-- Only NaNs are not read back bit by bit. -/
theorem toBits_ofBits {bits : UInt64} (finite : (Float.ofBits bits).isFinite = true) :
    (Float.ofBits bits).toBits = bits := by
  have valid : Format.binary64.Valid bits.toBitVec := by
    refine ⟨fun full some => absurd finite ?_⟩
    have none : UnpackedFloat.unpack Format.binary64 bits.toBitVec = .notANumber := by
      unfold UnpackedFloat.unpack
      simp only
      rw [if_pos full, if_neg some]
    change (Float.Model.pack (UnpackedFloat.unpack Format.binary64 bits.toBitVec)).isFinite ≠ true
    rw [none]
    decide
  exact congrArg Float.toBits (Float.ofBits_toBits (.ofModel ⟨bits, valid⟩))

end Binary64

namespace Progress

/-- Equal progress is equal to the bit, the payload of a NaN included. -/
theorem le_antisymm {a b : Progress} (ab : a ≤ b) (ba : b ≤ a) : a = b :=
  congrArg mk (Binary64.rank_injective (UInt64.le_antisymm ab ba))

example :
    (⟨0xFFF8000000000001⟩ : Progress) < ⟨0xFFF8000000000000⟩ ∧
      (⟨0xFFF8000000000000⟩ : Progress) < ofFloat (-1 / 0) ∧ ofFloat (-0.0) < 0 ∧
      ofFloat (1 / 0) < ⟨0x7FF8000000000000⟩ := by
  decide +kernel

@[simp] theorem value_ofFloat (x : Float) : (ofFloat x).value = x := Float.ofBits_toBits x

theorem ofFloat_value {p : Progress} (finite : p.value.isFinite = true) : ofFloat p.value = p :=
  congrArg mk (Binary64.toBits_ofBits finite)

end ProceduralScene.Progress
