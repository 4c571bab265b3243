import ProceduralScene.Proofs.Binary64.Reading

/-! Sums, differences, products and quotients of doubles are the exact ones, rounded. Each of them
is computed on a mantissa that is shifted right bit by bit, with two bits for what falls off. -/
namespace ProceduralScene.Binary64

open Float.Model Float.Model.UnpackedFloat

/-- What a mantissa stands for together with the bits for what fell off. -/
def Approximates (em : ExtendedMantissa) (x : ℚ) : Prop :=
  if em.stickyBit then
    2 * em.mantissa + em.roundBit.toNat < 2 * x ∧ 2 * x < 2 * em.mantissa + em.roundBit.toNat + 1
  else 2 * x = 2 * em.mantissa + em.roundBit.toNat

namespace Approximates

variable {em : ExtendedMantissa} {x : ℚ}

theorem exact (m : ℕ) : Approximates (.ofMantissaAndAccuracy m .exact) m := by
  simp [Approximates, ExtendedMantissa.ofMantissaAndAccuracy]

theorem shiftRightOne (stands : Approximates em x) : Approximates em.shiftRightOne (x / 2) := by
  obtain ⟨m, r, s⟩ := em
  have halves : (2 * (m / 2 : ℕ) + (m % 2 : ℕ) : ℚ) = m := by
    exact_mod_cast Nat.div_add_mod m 2
  have last : ((m % 2 != 0).toNat : ℚ) = (m % 2 : ℕ) := by
    rcases Nat.mod_two_eq_zero_or_one m with even | odd
    · rw [even]
      rfl
    · rw [odd]
      rfl
  unfold Approximates ExtendedMantissa.shiftRightOne at *
  simp only at *
  rw [last, halves, show 2 * (x / 2) = x by ring]
  cases r <;> cases s <;>
    simp only [Bool.or_true, Bool.or_false, if_true, if_false, Bool.toNat_false,
      Bool.toNat_true, Bool.false_eq_true, Nat.cast_zero, Nat.cast_one] at *
  · linarith
  · exact ⟨by linarith, by linarith⟩
  · exact ⟨by linarith, by linarith⟩
  · exact ⟨by linarith, by linarith⟩

theorem shiftRight (stands : Approximates em x) (n : ℕ) : Approximates (em >>> n) (x / 2 ^ n) := by
  change Approximates (n.repeat ExtendedMantissa.shiftRightOne em) _
  induction n with
  | zero => simpa [Nat.repeat] using stands
  | succ n ih =>
    rw [Nat.repeat, pow_succ, ← div_div]
    exact ih.shiftRightOne

theorem roundedMantissa (stands : Approximates em x) : nearestEven x = em.roundedMantissa := by
  apply IsNearestEven.eq
  obtain ⟨m, r, s⟩ := em
  unfold Approximates at stands
  unfold IsNearestEven ExtendedMantissa.roundedMantissa ExtendedMantissa.accuracy
    Accuracy.roundToNearestEven
  cases r <;> cases s <;>
    simp only [if_true, if_false, Bool.toNat_false, Bool.toNat_true, Bool.false_eq_true,
      Nat.cast_zero, Nat.cast_one] at stands ⊢
  · left
    rw [show x - ((m : ℤ) : ℚ) = 0 by push_cast; linarith]
    norm_num
  · left
    push_cast
    rw [abs_of_pos (by linarith)]
    linarith
  · right
    have tie : x = m + 1 / 2 := by linarith
    rcases Nat.mod_two_eq_zero_or_one m with even | odd
    · rw [even, tie]
      push_cast
      exact ⟨by norm_num, by omega⟩
    · rw [odd, tie]
      push_cast
      exact ⟨by norm_num, by omega⟩
  · left
    push_cast
    rw [abs_of_neg (by linarith)]
    linarith

theorem bounds (stands : Approximates em x) : em.mantissa ≤ x ∧ x < em.mantissa + 1 := by
  obtain ⟨m, r, s⟩ := em
  unfold Approximates at stands
  cases r <;> cases s <;>
    simp only [if_true, if_false, Bool.toNat_false, Bool.toNat_true, Bool.false_eq_true,
      Nat.cast_zero, Nat.cast_one] at stands ⊢
  all_goals constructor <;> linarith

theorem quotient (m : ℕ) {d : ℕ} (positive : 0 < d) :
    Approximates (.ofMantissaAndAccuracy (m / d) (accuracyOfFraction (m % d) d)) (m / d) := by
  have scale : (0 : ℚ) < d := by exact_mod_cast positive
  have split : (m : ℚ) / d = (m / d : ℕ) + (m % d : ℕ) / d := by
    have : (d * (m / d : ℕ) + (m % d : ℕ) : ℚ) = m := by exact_mod_cast Nat.div_add_mod m d
    rw [← this]
    field_simp
  have less : ((m % d : ℕ) : ℚ) / d < 1 := by
    rw [div_lt_one scale]
    exact_mod_cast Nat.mod_lt m positive
  have side (a b : ℚ) : (2 * (a / d) < b ↔ 2 * a < b * d) ∧ (b < 2 * (a / d) ↔ b * d < 2 * a) ∧
      (2 * (a / d) = b ↔ 2 * a = b * d) := by
    rw [← mul_div_assoc]
    exact ⟨div_lt_iff₀ scale, lt_div_iff₀ scale, div_eq_iff scale.ne'⟩
  rw [split]
  unfold accuracyOfFraction
  split_ifs with whole
  · rw [whole, Nat.cast_zero, zero_div, add_zero]
    exact exact _
  · have above : (0 : ℚ) < (m % d : ℕ) / d := by
      have : (0 : ℚ) < (m % d : ℕ) := by exact_mod_cast Nat.pos_of_ne_zero whole
      positivity
    rcases lt_trichotomy (2 * (m % d)) d with low | tie | high
    · rw [compare_lt_iff_lt.mpr low]
      have : 2 * (((m % d : ℕ) : ℚ) / d) < 1 := ((side _ 1).1).mpr (by
        rw [one_mul]
        exact_mod_cast low)
      simp only [Approximates, ExtendedMantissa.ofMantissaAndAccuracy, if_true, Bool.toNat_false,
        Nat.cast_zero]
      constructor <;> linarith
    · rw [compare_eq_iff_eq.mpr tie]
      have : 2 * (((m % d : ℕ) : ℚ) / d) = 1 := ((side _ 1).2.2).mpr (by
        rw [one_mul]
        exact_mod_cast tie)
      simp only [Approximates, ExtendedMantissa.ofMantissaAndAccuracy, Bool.false_eq_true, if_false,
        Bool.toNat_true, Nat.cast_one]
      linarith
    · rw [compare_gt_iff_gt.mpr high]
      have : 1 < 2 * (((m % d : ℕ) : ℚ) / d) := ((side _ 1).2.1).mpr (by
        rw [one_mul]
        exact_mod_cast high)
      simp only [Approximates, ExtendedMantissa.ofMantissaAndAccuracy, if_true, Bool.toNat_true,
        Nat.cast_one]
      constructor <;> linarith

end Approximates

/-- Rounding up to the next power of two moves the exponent, and nothing else does. -/
theorem carry {r k : ℕ} (short : r ≤ 2 ^ 53) (normal : 2 ^ 52 ≤ r ∨ k = 0) :
    ∃ m' k' : ℕ, shiftToTargetExponent Format.binary64 r (k - 1074) .exact =
        (⟨m', false, false⟩, (k' : ℤ) - 1074) ∧
      m' < 2 ^ 53 ∧ (2 ^ 52 ≤ m' ∨ k' = 0) ∧ (m' * 2 ^ k' : ℤ) = r * 2 ^ k := by
  rcases short.lt_or_eq with short | rfl
  · have log : r.log2 < 53 := by
      by_cases zero : r = 0
      · subst zero
        decide
      · exact (Nat.log2_lt zero).mpr short
    have stays : (Format.binary64.targetExponent (totalExponent r (k - 1074)) -
        ((k : ℤ) - 1074)).toNat = 0 := by
      change (max ((r.log2 : ℤ) + 1 + (k - 1074) - 53) (-1074) - ((k : ℤ) - 1074)).toNat = 0
      omega
    refine ⟨r, k, ?_, short, normal, rfl⟩
    simp only [shiftToTargetExponent, shiftToExponent, stays]
    simp [HShiftRight.hShiftRight, Nat.repeat, ExtendedMantissa.ofMantissaAndAccuracy]
  · have moves : (Format.binary64.targetExponent (totalExponent (2 ^ 53) (k - 1074)) -
        ((k : ℤ) - 1074)).toNat = 1 := by
      unfold totalExponent
      rw [Nat.log2_two_pow]
      change (max ((53 : ℤ) + 1 + (k - 1074) - 53) (-1074) - ((k : ℤ) - 1074)).toNat = 1
      omega
    refine ⟨2 ^ 52, k + 1, ?_, by norm_num, .inl le_rfl, by push_cast; ring⟩
    simp only [shiftToTargetExponent, shiftToExponent, moves]
    simp [HShiftRight.hShiftRight, Nat.repeat, ExtendedMantissa.ofMantissaAndAccuracy,
      ExtendedMantissa.shiftRightOne]
    ring

theorem two_pow_mul_zpow (n : ℕ) (e : ℤ) : (2 : ℚ) ^ n * 2 ^ e = 2 ^ (n + e) := by
  rw [zpow_add₀ (by norm_num), zpow_natCast]

theorem spaced_of_bounds {m k : ℕ} {e : ℤ} {x : ℚ} (low : (m : ℚ) ≤ x) (high : x < m + 1)
    (target : max ((m.log2 : ℤ) + 1 + e - 53) (-1074) = k - 1074) (fine : e ≤ k - 1074) :
    Spaced (x * 2 ^ (e + 1074)) k := by
  have scale : (0 : ℚ) < 2 ^ (e + 1074) := zpow_pos (by norm_num) _
  have nonneg : 0 ≤ x := (Nat.cast_nonneg m).trans low
  rw [Spaced, abs_of_nonneg (mul_nonneg nonneg scale.le)]
  constructor
  · have upper : ((m + 1 : ℕ) : ℚ) ≤ ((2 ^ (m.log2 + 1) : ℕ) : ℚ) := by
      exact_mod_cast Nat.lt_log2_self
    push_cast at upper
    calc x * 2 ^ (e + 1074) < 2 ^ (m.log2 + 1) * 2 ^ (e + 1074) :=
          mul_lt_mul_of_pos_right (by linarith) scale
      _ = 2 ^ (((m.log2 + 1 : ℕ) : ℤ) + (e + 1074)) := two_pow_mul_zpow _ _
      _ ≤ 2 ^ ((53 + k : ℕ) : ℤ) := zpow_le_zpow_right₀ (by norm_num) (by omega)
      _ = 2 ^ (53 + k) := zpow_natCast _ _
  · by_cases zero : k = 0
    · exact .inl zero
    · right
      have nonzero : m ≠ 0 := by
        rintro rfl
        have : Nat.log2 0 = 0 := by decide
        omega
      have lower : ((2 ^ m.log2 : ℕ) : ℚ) ≤ m := by exact_mod_cast Nat.log2_self_le nonzero
      push_cast at lower
      calc (2 : ℚ) ^ (52 + k) = 2 ^ ((52 + k : ℕ) : ℤ) := (zpow_natCast _ _).symm
        _ = 2 ^ ((m.log2 : ℤ) + (e + 1074)) := by
            congr 1
            omega
        _ = 2 ^ m.log2 * 2 ^ (e + 1074) := (two_pow_mul_zpow _ _).symm
        _ ≤ x * 2 ^ (e + 1074) := mul_le_mul_of_nonneg_right (by linarith) scale.le

/-- Rounding leaves at most one binade more, and keeps to the form that packing expects. -/
theorem nearestEven_bounds {q : ℚ} {k r : ℕ} (nonneg : 0 ≤ q) (spaced : Spaced q k)
    (eq : nearestEven (q / 2 ^ k) = r) : r ≤ 2 ^ 53 ∧ (2 ^ 52 ≤ r ∨ k = 0) := by
  rw [Spaced, abs_of_nonneg nonneg] at spaced
  have scale : (0 : ℚ) < 2 ^ k := by positivity
  constructor
  · have : nearestEven (q / 2 ^ k) ≤ 2 ^ 53 := by
      refine nearestEven_le ((div_le_iff₀ scale).mpr ?_)
      rw [Int.cast_pow, Int.cast_ofNat, ← pow_add]
      exact spaced.1.le
    omega
  · refine spaced.2.symm.imp_left fun low => ?_
    have : 2 ^ 52 ≤ nearestEven (q / 2 ^ k) := by
      refine le_nearestEven ((le_div_iff₀ scale).mpr ?_)
      rw [Int.cast_pow, Int.cast_ofNat, ← pow_add]
      exact low
    omega

theorem denotes_roundWithAccuracy (s : Sign) {m : ℕ} {e : ℤ} {accuracy : Accuracy} {x : ℚ}
    (stands : Approximates (.ofMantissaAndAccuracy m accuracy) x)
    (fine : e ≤ Format.binary64.targetExponent (totalExponent m e)) :
    Denotes (roundWithAccuracy Format.binary64 s m e accuracy)
      (s.apply (onGrid (x * 2 ^ (e + 1074)))) := by
  have mantissa : (ExtendedMantissa.ofMantissaAndAccuracy m accuracy).mantissa = m := by
    unfold ExtendedMantissa.ofMantissaAndAccuracy
    split <;> rfl
  have bounds := stands.bounds
  rw [mantissa] at bounds
  obtain ⟨k, target⟩ : ∃ k : ℕ, Format.binary64.targetExponent (totalExponent m e) = k - 1074 := by
    refine ⟨(Format.binary64.targetExponent (totalExponent m e) + 1074).toNat, ?_⟩
    have : (-1074 : ℤ) ≤ Format.binary64.targetExponent (totalExponent m e) := le_max_right _ _
    omega
  obtain ⟨n, distance⟩ : ∃ n : ℕ, (k : ℤ) - 1074 = e + n :=
    ⟨((k : ℤ) - 1074 - e).toNat, by omega⟩
  have spaced : Spaced (x * 2 ^ (e + 1074)) k :=
    spaced_of_bounds bounds.1 bounds.2 target (by omega)
  have quotient : x * 2 ^ (e + 1074) / 2 ^ k = x / 2 ^ n := by
    rw [div_eq_div_iff (by positivity) (by positivity), mul_assoc, mul_comm ((2 : ℚ) ^ (e + 1074)),
      two_pow_mul_zpow, ← zpow_natCast 2 k]
    congr 2
    omega
  have nonneg : 0 ≤ x * 2 ^ (e + 1074) :=
    mul_nonneg ((Nat.cast_nonneg m).trans bounds.1) (zpow_nonneg (by norm_num) _)
  have rounds := (stands.shiftRight n).roundedMantissa
  have first : shiftToTargetExponent Format.binary64 m e accuracy =
      (ExtendedMantissa.ofMantissaAndAccuracy m accuracy >>> n, (k : ℤ) - 1074) := by
    simp only [shiftToTargetExponent, shiftToExponent, target]
    rw [show ((k : ℤ) - 1074 - e).toNat = n by omega, distance]
  obtain ⟨short, normal⟩ := nearestEven_bounds nonneg spaced (quotient ▸ rounds)
  obtain ⟨m', k', second, short', normal', same⟩ := carry short normal
  have value : onGrid (x * 2 ^ (e + 1074)) = m' * 2 ^ k' := by
    rw [onGrid, spaced.eq, quotient, rounds, same]
  simp only [roundWithAccuracy, first, second]
  rw [value]
  split_ifs with zero
  · subst zero
    cases s <;> simpa [Sign.apply] using Denotes.zero _
  · exact .finite s (Nat.pos_of_ne_zero zero) rfl short' normal'

theorem log2_shiftLeft {m : ℕ} (nonzero : m ≠ 0) (n : ℕ) : (m <<< n).log2 = m.log2 + n := by
  induction n with
  | zero => rfl
  | succ n ih =>
    have : m <<< n ≠ 0 := by
      rw [Nat.shiftLeft_eq]
      positivity
    rw [Nat.shiftLeft_succ, Nat.log2_two_mul this, ih, Nat.add_assoc]

theorem denotes_round (s : Sign) {m : ℕ} (e : ℤ) (positive : 0 < m) :
    Denotes (UnpackedFloat.round Format.binary64 s m e)
      (s.apply (onGrid (m * 2 ^ (e + 1074)))) := by
  simp only [UnpackedFloat.round, decreaseExponent]
  generalize amount : (e - Format.binary64.targetExponent (totalExponent m e)).toNat = n
  have total : totalExponent (m <<< n) (e - n) = totalExponent m e := by
    unfold totalExponent
    rw [log2_shiftLeft positive.ne']
    push_cast
    ring
  have value : ((m <<< n : ℕ) : ℚ) * 2 ^ (e - n + 1074) = m * 2 ^ (e + 1074) := by
    rw [Nat.shiftLeft_eq, Nat.cast_mul, Nat.cast_pow, Nat.cast_ofNat, mul_assoc, two_pow_mul_zpow]
    congr 2
    ring
  rw [← value]
  refine denotes_roundWithAccuracy s (.exact _) ?_
  rw [total]
  omega

theorem denotes_normalize (m e : ℤ) (s : Sign) {q : ℚ} (value : (m : ℚ) * 2 ^ (e + 1074) = q) :
    Denotes (UnpackedFloat.normalize Format.binary64 m e s) (onGrid q) := by
  subst value
  unfold UnpackedFloat.normalize
  rcases lt_trichotomy m 0 with negative | rfl | positive
  · rw [compare_lt_iff_lt.mpr negative]
    have := denotes_round .negative (m := (-m).toNat) e (by omega)
    rw [← Int.cast_natCast (R := ℚ), Int.toNat_of_nonneg (by omega), Int.cast_neg, neg_mul,
      onGrid_neg] at this
    simpa only [Sign.apply, neg_neg] using this
  · rw [compare_eq_iff_eq.mpr rfl, Int.cast_zero, zero_mul, onGrid_zero]
    exact .zero s
  · rw [compare_gt_iff_gt.mpr positive]
    have := denotes_round .positive (m := m.toNat) e (by omega)
    rwa [← Int.cast_natCast (R := ℚ), Int.toNat_of_nonneg (by omega)] at this

theorem Denotes.onGrid_eq {u : UnpackedFloat} {n : ℤ} (denotes : Denotes u n) : onGrid n = n := by
  cases denotes with
  | zero s => exact onGrid_zero
  | @finite s m k e positive exponent short normal =>
    have kept := onGrid_of_multiple (m := s.apply m) k (by
      rw [abs_apply, abs_of_nonneg (by positivity)]
      exact_mod_cast short)
    have same : s.apply (m * 2 ^ k) = s.apply m * 2 ^ k := by
      cases s
      · exact (Int.neg_mul _ _).symm
      · rfl
    rw [same]
    push_cast
    exact kept

theorem Denotes.neg {u : UnpackedFloat} {n : ℤ} (denotes : Denotes u n) : Denotes u.neg (-n) := by
  cases denotes with
  | zero s => exact .zero (-s)
  | @finite s m k e positive exponent short normal =>
    have flip : -s.apply (m * 2 ^ k) = (-s).apply (m * 2 ^ k) := by
      cases s
      · exact Int.neg_neg _
      · rfl
    rw [flip]
    exact .finite (-s) positive exponent short normal

theorem apply_shiftLeft (s : Sign) (m : ℕ) {k l : ℕ} {e d : ℤ} (exponent : e = k - 1074)
    (smaller : d = l - 1074) (le : d ≤ e) :
    s.apply ((m <<< (e - d).toNat : ℕ) : ℤ) * 2 ^ l = s.apply (m * 2 ^ k) := by
  have split : k = (e - d).toNat + l := by omega
  rw [Nat.shiftLeft_eq, split, pow_add]
  cases s <;> simp only [Sign.apply] <;> push_cast <;> ring

theorem Denotes.add {u v : UnpackedFloat} {a b : ℤ} (left : Denotes u a) (right : Denotes v b) :
    Denotes (UnpackedFloat.add Format.binary64 u v) (onGrid (a + b : ℤ)) := by
  cases left with
  | zero s =>
    rw [zero_add]
    cases right with
    | zero s' =>
      rw [Int.cast_zero, onGrid_zero]
      simp only [UnpackedFloat.add]
      split_ifs
      · exact .zero s
      · exact .zero .positive
    | finite s' positive exponent short normal =>
      have right := Denotes.finite s' positive exponent short normal
      rw [right.onGrid_eq]
      exact right
  | @finite s m k e positive exponent short normal =>
    have left := Denotes.finite s positive exponent short normal
    cases right with
    | zero s' =>
      rw [add_zero, left.onGrid_eq]
      exact left
    | @finite s' m' k' e' positive' exponent' short' normal' =>
      obtain ⟨l, smaller⟩ : ∃ l : ℕ, min e e' = l - 1074 := ⟨min k k', by omega⟩
      simp only [UnpackedFloat.add, decreaseExponent]
      refine denotes_normalize _ _ _ ?_
      rw [smaller, show ((l : ℤ) - 1074 + 1074) = (l : ℕ) by ring, zpow_natCast,
        ← apply_shiftLeft s m exponent smaller (min_le_left _ _),
        ← apply_shiftLeft s' m' exponent' smaller (min_le_right _ _), smaller]
      push_cast
      ring

theorem sub_eq_add_neg (u v : UnpackedFloat) :
    UnpackedFloat.sub Format.binary64 u v = UnpackedFloat.add Format.binary64 u v.neg := by
  have twice (s : Sign) : - -s = s := by cases s <;> rfl
  have flip (s : Sign) (n : ℤ) : (-s).apply n = -s.apply n := by
    cases s
    · exact (Int.neg_neg n).symm
    · rfl
  cases u <;> cases v <;>
    simp only [UnpackedFloat.sub, UnpackedFloat.add, UnpackedFloat.neg, flip, Int.sub_eq_add_neg]

theorem Denotes.sub {u v : UnpackedFloat} {a b : ℤ} (left : Denotes u a) (right : Denotes v b) :
    Denotes (UnpackedFloat.sub Format.binary64 u v) (onGrid (a - b : ℤ)) := by
  rw [sub_eq_add_neg, Int.sub_eq_add_neg]
  exact left.add right.neg

theorem apply_eq (s : Sign) (n : ℤ) : (s.apply n : ℚ) = s.apply 1 * n := by
  cases s <;> simp [Sign.apply]

theorem mul_apply_one (s s' : Sign) : (s * s').apply 1 = s.apply 1 * s'.apply 1 := by
  cases s <;> cases s' <;> rfl

theorem apply_onGrid (s : Sign) (q : ℚ) : s.apply (onGrid q) = onGrid (s.apply 1 * q) := by
  cases s with
  | positive => simp [Sign.apply]
  | negative => simp [Sign.apply, onGrid_neg]

theorem Denotes.mul {u v : UnpackedFloat} {a b : ℤ} (left : Denotes u a) (right : Denotes v b) :
    Denotes (UnpackedFloat.mul Format.binary64 u v) (onGrid (a * b / 2 ^ 1074)) := by
  cases left with
  | zero s =>
    rw [Int.cast_zero, zero_mul, zero_div, onGrid_zero]
    cases right <;> exact .zero _
  | @finite s m k e positive exponent short normal =>
    cases right with
    | zero s' =>
      rw [Int.cast_zero, mul_zero, zero_div, onGrid_zero]
      exact .zero _
    | @finite s' m' k' e' positive' exponent' short' normal' =>
      have fine : e + e' ≤ Format.binary64.targetExponent (totalExponent (m * m') (e + e')) := by
        change e + e' ≤ max (((m * m').log2 : ℤ) + 1 + (e + e') - 53) (-1074)
        by_cases long : 2 ^ 52 ≤ m * m'
        · have := (Nat.le_log2 (mul_pos positive positive').ne').mpr long
          omega
        -- both are subnormal
        · have : k = 0 := by
            refine normal.resolve_left fun big => long (big.trans ?_)
            exact Nat.le_mul_of_pos_right m positive'
          have : k' = 0 := by
            refine normal'.resolve_left fun big => long (big.trans ?_)
            exact Nat.le_mul_of_pos_left m' positive
          omega
      have product := denotes_roundWithAccuracy (s * s') (.exact (m * m')) fine
      have value : ((s * s').apply 1 : ℚ) * ((m * m' : ℕ) * 2 ^ (e + e' + 1074)) =
          s.apply (m * 2 ^ k) * s'.apply (m' * 2 ^ k') / 2 ^ 1074 := by
        rw [show e + e' + 1074 = ((k + k' : ℕ) : ℤ) - (1074 : ℕ) by push_cast; omega,
          zpow_sub₀ (by norm_num), zpow_natCast, zpow_natCast, pow_add, mul_apply_one,
          apply_eq s (m * 2 ^ k), apply_eq s' (m' * 2 ^ k')]
        generalize (2 : ℚ) ^ 1074 = scale
        push_cast
        ring
      rw [apply_onGrid, value] at product
      exact product

/-- A quotient is computed to as many bits as rounding needs. -/
theorem quotient_fine {m m' n : ℕ} {e e' t : ℤ} (positive : 0 < m) (positive' : 0 < m')
    (short : m < 2 ^ 53)
    (target : min (e - e')
      (Format.binary64.targetExponent (totalExponent m e - totalExponent m' e')) = t)
    (shift : e - e' - t = n) :
    t ≤ Format.binary64.targetExponent (totalExponent (m <<< n / m') t) := by
  change min (e - e') (max ((m.log2 + 1 + e : ℤ) - (m'.log2 + 1 + e') - 53) (-1074)) = t at target
  change t ≤ max (((m <<< n / m').log2 : ℤ) + 1 + t - 53) (-1074)
  by_cases lowest : t ≤ -1074
  · exact lowest.trans (le_max_right _ _)
  · have log := (Nat.log2_lt positive.ne').mpr short
    have lifted : (m <<< n).log2 = m'.log2 + 53 := by
      rw [log2_shiftLeft positive.ne']
      omega
    have nonzero : m <<< n ≠ 0 := by
      intro zero
      rw [zero, Nat.log2_zero] at lifted
      omega
    have long : 2 ^ 52 ≤ m <<< n / m' := by
      rw [Nat.le_div_iff_mul_le positive']
      calc 2 ^ 52 * m' ≤ 2 ^ 52 * 2 ^ (m'.log2 + 1) := by
            gcongr
            exact Nat.lt_log2_self.le
        _ = 2 ^ (m <<< n).log2 := by
            rw [← pow_add, lifted]
            congr 1
            omega
        _ ≤ m <<< n := Nat.log2_self_le nonzero
    have := (Nat.le_log2 (by omega : m <<< n / m' ≠ 0)).mpr long
    omega

theorem Denotes.div {u v : UnpackedFloat} {a b : ℤ} (left : Denotes u a) (right : Denotes v b)
    (nonzero : b ≠ 0) :
    Denotes (UnpackedFloat.div Format.binary64 u v) (onGrid (a * 2 ^ 1074 / b)) := by
  cases right with
  | zero s => exact absurd rfl nonzero
  | @finite s' m' k' e' positive' exponent' short' normal' =>
    cases left with
    | zero s =>
      rw [Int.cast_zero, zero_mul, zero_div, onGrid_zero]
      exact .zero _
    | @finite s m k e positive exponent short normal =>
      have sign : s / s' = s * s' := by cases s <;> cases s' <;> rfl
      simp only [UnpackedFloat.div, divCore, sign]
      generalize target : min (e - e')
        (Format.binary64.targetExponent (totalExponent m e - totalExponent m' e')) = t
      obtain ⟨n, shift⟩ : ∃ n : ℕ, e - e' - t = n := ⟨(e - e' - t).toNat, by omega⟩
      rw [shift, Int.toNat_natCast]
      have fine := quotient_fine positive positive' short target shift
      have quotient := denotes_roundWithAccuracy (s * s') (.quotient (m <<< n) positive') fine
      have value : ((s * s').apply 1 : ℚ) * ((m <<< n : ℕ) / m' * 2 ^ (t + 1074)) =
          s.apply (m * 2 ^ k) * 2 ^ 1074 / s'.apply (m' * 2 ^ k') := by
        have binade : (2 : ℚ) ^ n * 2 ^ (t + 1074) = 2 ^ k * 2 ^ 1074 / 2 ^ k' := by
          rw [two_pow_mul_zpow, show (n : ℤ) + (t + 1074) = ((k + 1074 : ℕ) : ℤ) - (k' : ℕ) by
            push_cast; omega, zpow_sub₀ (by norm_num), zpow_natCast, zpow_natCast, pow_add]
        have unit : (s'.apply 1 : ℚ) = 1 ∨ (s'.apply 1 : ℚ) = -1 := by
          cases s' <;> simp [Sign.apply]
        have scale : (m' : ℚ) ≠ 0 := by exact_mod_cast positive'.ne'
        rw [Nat.shiftLeft_eq, mul_apply_one, apply_eq s (m * 2 ^ k), apply_eq s' (m' * 2 ^ k')]
        push_cast
        rw [show (m * 2 ^ n / m' * 2 ^ (t + 1074) : ℚ) = m / m' * (2 ^ n * 2 ^ (t + 1074)) by ring,
          binade]
        generalize (2 : ℚ) ^ 1074 = span
        rcases unit with unit | unit <;> rw [unit] <;> field_simp
      rw [apply_onGrid, value] at quotient
      exact quotient

variable {x y : Float}

@[simp] theorem units_zero : units 0 = 0 := by decide +kernel

theorem units_one : units 1 = 2 ^ 1074 := by decide +kernel

theorem units_add (left : x.isFinite = true) (right : y.isFinite = true) :
    units (x + y) = rounded (units x + units y : ℤ) :=
  units_pack ((denotes_unpack left).add (denotes_unpack right))

theorem units_sub (left : x.isFinite = true) (right : y.isFinite = true) :
    units (x - y) = rounded (units x - units y : ℤ) :=
  units_pack ((denotes_unpack left).sub (denotes_unpack right))

theorem units_mul (left : x.isFinite = true) (right : y.isFinite = true) :
    units (x * y) = rounded (units x * units y / 2 ^ 1074) :=
  units_pack ((denotes_unpack left).mul (denotes_unpack right))

theorem units_div (left : x.isFinite = true) (right : y.isFinite = true) (nonzero : units y ≠ 0) :
    units (x / y) = rounded (units x * 2 ^ 1074 / units y) :=
  units_pack ((denotes_unpack left).div (denotes_unpack right) nonzero)

theorem units_packInfinity (s : Sign) :
    units (.ofModel (.pack (.infinity s))) = s.apply overflow := by
  rw [units_eq_fieldUnits]
  exact fieldUnits_packedInfinity s

theorem Reads.infinite {u : UnpackedFloat} {n : ℤ} (reads : Reads u n) (number : n ≤ overflow)
    (outside : overflow ≤ |n|) : ∃ s : Sign, u = .infinity s ∧ n = s.apply overflow := by
  cases reads with
  | notANumber past => omega
  | infinity s => exact ⟨s, rfl, rfl⟩
  | finite _ inside => omega

theorem unpack_infinite (number : units x ≤ overflow) (infinite : ¬x.isFinite = true) :
    ∃ s : Sign, x.toModel.unpack = .infinity s ∧ units x = s.apply overflow :=
  (reads_unpack x).infinite number (not_lt.mp (mt isFinite_iff.mpr infinite))

theorem units_mul_le (finite : x.isFinite = true) (nonzero : units x ≠ 0)
    (number : units y ≤ overflow) : units (x * y) ≤ overflow := by
  by_cases finite' : y.isFinite = true
  · rw [units_mul finite finite']
    exact rounded_le_overflow _
  · obtain ⟨s, infinite, -⟩ := unpack_infinite number finite'
    have product : ∃ s', UnpackedFloat.mul Format.binary64 x.toModel.unpack y.toModel.unpack =
        .infinity s' := by
      have denotes := denotes_unpack finite
      rw [infinite]
      generalize x.toModel.unpack = u at denotes
      generalize units x = n at denotes nonzero
      cases denotes with
      | zero _ => exact absurd rfl nonzero
      | finite s' _ _ _ _ => exact ⟨s' * s, rfl⟩
    obtain ⟨s', product⟩ := product
    change units (.ofModel (.pack (UnpackedFloat.mul Format.binary64 x.toModel.unpack
      y.toModel.unpack))) ≤ overflow
    rw [product, units_packInfinity]
    have := overflow_pos
    cases s' <;> simp only [Sign.apply] <;> omega

theorem Denotes.add_infinity {u : UnpackedFloat} {n : ℤ} (denotes : Denotes u n) (s : Sign) :
    UnpackedFloat.add Format.binary64 u (.infinity s) = .infinity s ∧
      UnpackedFloat.add Format.binary64 (.infinity s) u = .infinity s ∧
      UnpackedFloat.sub Format.binary64 u (.infinity s) = .infinity (-s) := by
  cases denotes <;> exact ⟨rfl, rfl, rfl⟩

theorem units_infinite_add (number : units x ≤ overflow) (infinite : ¬x.isFinite = true)
    (finite : y.isFinite = true) : units (x + y) = units x := by
  obtain ⟨s, unpacked, value⟩ := unpack_infinite number infinite
  change units (.ofModel (.pack (UnpackedFloat.add Format.binary64 x.toModel.unpack
    y.toModel.unpack))) = _
  rw [unpacked, ((denotes_unpack finite).add_infinity s).2.1, units_packInfinity, value]

theorem units_add_infinite (finite : x.isFinite = true) (number : units y ≤ overflow)
    (infinite : ¬y.isFinite = true) : units (x + y) = units y := by
  obtain ⟨s, unpacked, value⟩ := unpack_infinite number infinite
  change units (.ofModel (.pack (UnpackedFloat.add Format.binary64 x.toModel.unpack
    y.toModel.unpack))) = _
  rw [unpacked, ((denotes_unpack finite).add_infinity s).1, units_packInfinity, value]

theorem units_sub_infinite (finite : x.isFinite = true) (number : units y ≤ overflow)
    (infinite : ¬y.isFinite = true) : units (x - y) = -units y := by
  obtain ⟨s, unpacked, value⟩ := unpack_infinite number infinite
  change units (.ofModel (.pack (UnpackedFloat.sub Format.binary64 x.toModel.unpack
    y.toModel.unpack))) = _
  rw [unpacked, ((denotes_unpack finite).add_infinity s).2.2, units_packInfinity, value]
  cases s
  · exact (Int.neg_neg _).symm
  · rfl

theorem Denotes.abs {u : UnpackedFloat} {n : ℤ} (denotes : Denotes u n) : Denotes u.abs |n| := by
  cases denotes with
  | zero s => exact .zero .positive
  | finite s positive exponent short normal =>
    rw [abs_apply, abs_of_nonneg (by positivity)]
    exact .finite .positive positive exponent short normal

theorem units_abs (finite : x.isFinite = true) : units x.abs = |units x| := by
  refine (units_pack (denotes_unpack finite).abs).trans (clamp_of_inside ?_)
  rw [abs_abs]
  exact (isFinite_iff.mp finite).le

/-! Bounds that survive rounding. -/

theorem number_of_finite (finite : x.isFinite = true) : units x ≤ overflow :=
  (le_abs_self _).trans (isFinite_iff.mp finite).le

theorem isDouble_of_finite (finite : x.isFinite = true) : IsDouble (units x) :=
  isDouble_units (number_of_finite finite)

theorem le_add_self (finite : x.isFinite = true) (nonneg : 0 ≤ y) : x ≤ x + y := by
  rw [le_iff, units_zero] at nonneg
  rw [le_iff]
  have inside := abs_lt.mp (isFinite_iff.mp finite)
  by_cases finite' : y.isFinite = true
  · rw [units_add finite finite']
    refine ⟨(isDouble_of_finite finite).le_rounded ?_, rounded_le_overflow _⟩
    exact_mod_cast Int.le_add_of_nonneg_right nonneg.1
  · rw [units_add_infinite finite nonneg.2 finite']
    rw [isFinite_iff, abs_of_nonneg nonneg.1] at finite'
    omega

theorem sub_le_self (finite : x.isFinite = true) (nonneg : 0 ≤ y) : x - y ≤ x := by
  rw [le_iff, units_zero] at nonneg
  rw [le_iff]
  have inside := abs_lt.mp (isFinite_iff.mp finite)
  refine ⟨?_, inside.2.le⟩
  by_cases finite' : y.isFinite = true
  · rw [units_sub finite finite']
    refine (isDouble_of_finite finite).rounded_le ?_
    exact_mod_cast Int.sub_le_self _ nonneg.1
  · rw [units_sub_infinite finite nonneg.2 finite']
    rw [isFinite_iff, abs_of_nonneg nonneg.1] at finite'
    omega

theorem units_add_pos (number : units x ≤ overflow) (nonneg : 0 ≤ units x)
    (finite : y.isFinite = true) (positive : 0 < units y) : 0 < units (x + y) := by
  by_cases finite' : x.isFinite = true
  · have below : units y ≤ units (x + y) := by
      rw [units_add finite' finite]
      refine (isDouble_of_finite finite).le_rounded ?_
      exact_mod_cast Int.le_add_of_nonneg_left nonneg
    omega
  · rw [units_infinite_add number finite' finite]
    rw [isFinite_iff, abs_of_nonneg nonneg] at finite'
    have := overflow_pos
    omega

/-- A sum is greater than a finite number unless what is added to that is lost to rounding. -/
theorem units_lt_add_iff (finite : x.isFinite = true) (finite' : y.isFinite = true)
    (positive : 0 < units y) : units x < units (x + y) ↔ x + y ≠ x := by
  constructor
  · intro less same
    rw [same] at less
    omega
  · intro differs
    have reaches : units x ≤ units (x + y) := by
      rw [units_add finite finite']
      refine (isDouble_of_finite finite).le_rounded ?_
      exact_mod_cast Int.le_add_of_nonneg_right positive.le
    refine lt_of_le_of_ne reaches fun same => ?_
    by_cases zero : units x = 0
    · have := units_add_pos (number_of_finite finite) zero.ge finite' positive
      omega
    · exact differs (eq_of_units_eq same zero).symm

theorem units_lt_add (finite : x.isFinite = true) (finite' : y.isFinite = true)
    (enough : |units x| < 2 ^ 53 * units y) : units x < units (x + y) := by
  rw [units_add finite finite']
  exact lt_rounded_add (abs_lt.mp (isFinite_iff.mp finite)).2 enough

theorem isFinite_of_le_of_le {a b : Float} (low : a ≤ x) (high : x ≤ b)
    (finite : a.isFinite = true) (finite' : b.isFinite = true) : x.isFinite = true := by
  rw [le_iff] at low high
  have above := abs_lt.mp (isFinite_iff.mp finite)
  have below := abs_lt.mp (isFinite_iff.mp finite')
  exact isFinite_iff.mpr (abs_lt.mpr ⟨by omega, by omega⟩)

theorem isFinite_of_between (low : |units x| ≤ |units y|) (finite : y.isFinite = true) :
    x.isFinite = true :=
  isFinite_iff.mpr (low.trans_lt (isFinite_iff.mp finite))

theorem units_div_bounds (nonneg : 0 ≤ units x) (le : units x ≤ units y)
    (finite : y.isFinite = true) (nonzero : units y ≠ 0) :
    0 ≤ units (x / y) ∧ units (x / y) ≤ units 1 := by
  have finite' : x.isFinite = true := by
    refine isFinite_of_between ?_ finite
    rwa [abs_of_nonneg nonneg, abs_of_nonneg (nonneg.trans le)]
  have positive : (0 : ℚ) < units y := by
    exact_mod_cast (nonneg.trans le).lt_of_ne nonzero.symm
  have one : IsDouble (units 1) := isDouble_of_finite (by decide +kernel)
  rw [units_div finite' finite nonzero]
  constructor
  · refine isDouble_zero.le_rounded ?_
    have : (0 : ℚ) ≤ units x := by exact_mod_cast nonneg
    rw [Int.cast_zero]
    positivity
  · refine one.rounded_le ((div_le_iff₀ positive).mpr ?_)
    rw [units_one, Int.cast_pow, Int.cast_ofNat, mul_comm]
    gcongr

theorem units_mul_bounds (finite : x.isFinite = true) (nonneg : 0 ≤ units y)
    (le : units y ≤ units 1) :
    min 0 (units x) ≤ units (x * y) ∧ units (x * y) ≤ max 0 (units x) := by
  have finite' : y.isFinite = true := by
    refine isFinite_of_between (y := 1) ?_ (by decide +kernel)
    rwa [abs_of_nonneg nonneg, abs_of_nonneg (nonneg.trans le)]
  rw [units_mul finite finite']
  rw [units_one] at le
  have low : (0 : ℚ) ≤ units y / 2 ^ 1074 := by
    have : (0 : ℚ) ≤ units y := by exact_mod_cast nonneg
    positivity
  have high : (units y : ℚ) / 2 ^ 1074 ≤ 1 := by
    have : (units y : ℚ) ≤ ((2 ^ 1074 : ℤ) : ℚ) := Int.cast_le.mpr le
    rw [Int.cast_pow, Int.cast_ofNat] at this
    exact (div_le_one (by positivity)).mpr this
  rw [mul_div_assoc]
  generalize (units y : ℚ) / 2 ^ 1074 = share at low high
  have double := isDouble_of_finite finite
  rcases le_total 0 (units x) with forward | backward
  · have : (0 : ℚ) ≤ units x := by exact_mod_cast forward
    rw [min_eq_left forward, max_eq_right forward]
    exact ⟨isDouble_zero.le_rounded (by rw [Int.cast_zero]; positivity),
      double.rounded_le (mul_le_of_le_one_right this high)⟩
  · have : (units x : ℚ) ≤ 0 := by exact_mod_cast backward
    rw [min_eq_right backward, max_eq_left backward]
    exact ⟨double.le_rounded (by nlinarith),
      isDouble_zero.rounded_le (by rw [Int.cast_zero]; nlinarith)⟩

/-- Part of the way from one number to another, as it is computed, lies between the one and where
the whole way leads. -/
theorem units_lerp_bounds {a b f : Float} (finite : a.isFinite = true)
    (way : (b - a).isFinite = true) (nonneg : 0 ≤ units f) (le : units f ≤ units 1) :
    min (units a) (units (a + (b - a))) ≤ units (a + (b - a) * f) ∧
      units (a + (b - a) * f) ≤ max (units a) (units (a + (b - a))) := by
  obtain ⟨low, high⟩ := units_mul_bounds way nonneg le
  have part : ((b - a) * f).isFinite = true := by
    have inside := abs_lt.mp (isFinite_iff.mp way)
    rw [isFinite_iff, abs_lt]
    have := overflow_pos
    omega
  rw [units_add finite part, units_add finite way]
  rcases le_total 0 (units (b - a)) with forward | backward
  · have below : units a ≤ rounded (units a + units ((b - a) * f) : ℤ) :=
      (isDouble_of_finite finite).le_rounded (by exact_mod_cast (by omega))
    have above : rounded (units a + units ((b - a) * f) : ℤ) ≤
        rounded (units a + units (b - a) : ℤ) :=
      rounded_mono (by exact_mod_cast (by omega))
    omega
  · have below : rounded (units a + units (b - a) : ℤ) ≤
        rounded (units a + units ((b - a) * f) : ℤ) :=
      rounded_mono (by exact_mod_cast (by omega))
    have above : rounded (units a + units ((b - a) * f) : ℤ) ≤ units a :=
      (isDouble_of_finite finite).rounded_le (by exact_mod_cast (by omega))
    omega

end ProceduralScene.Binary64
