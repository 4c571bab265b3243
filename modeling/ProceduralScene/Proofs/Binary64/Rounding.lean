import Mathlib.Algebra.Order.Floor.Semiring
import Mathlib.Data.Rat.Floor
import Mathlib.Tactic.FieldSimp
import Mathlib.Tactic.Linarith
import Mathlib.Tactic.Positivity
import Mathlib.Tactic.Ring

/-! Rounding to a double, as arithmetic. Doubles are counted in units of the least positive one,
`2 ^ -1074`: they are the integers `m * 2 ^ k` with `|m| < 2 ^ 53`. Up to `2 ^ 53` every integer is
one of them, and in every further binade they lie twice as far apart. -/
namespace ProceduralScene.Binary64

def nearestEven (x : ℚ) : ℤ :=
  if 2 * (x - ⌊x⌋) < 1 then ⌊x⌋
  else if 1 < 2 * (x - ⌊x⌋) then ⌊x⌋ + 1
  else ⌊x⌋ + ⌊x⌋ % 2

def IsNearestEven (x : ℚ) (n : ℤ) : Prop :=
  2 * |x - n| < 1 ∨ 2 * |x - n| = 1 ∧ n % 2 = 0

theorem IsNearestEven.le {x : ℚ} {n : ℤ} (near : IsNearestEven x n) : 2 * |x - n| ≤ 1 :=
  near.elim le_of_lt fun tie => tie.1.le

theorem isNearestEven_nearestEven (x : ℚ) : IsNearestEven x (nearestEven x) := by
  have low := Int.floor_le x
  have high := Int.lt_floor_add_one x
  unfold nearestEven IsNearestEven
  split_ifs with below above
  · left
    rw [abs_of_nonneg (by linarith)]
    exact below
  · left
    push_cast
    rw [abs_of_nonpos (by linarith)]
    linarith
  · have tie : x - ⌊x⌋ = 1 / 2 := by linarith
    right
    rcases Int.emod_two_eq_zero_or_one ⌊x⌋ with even | odd
    · rw [even, add_zero, tie]
      exact ⟨by norm_num, even⟩
    · rw [odd]
      push_cast
      rw [show x - (⌊x⌋ + 1) = -(1 / 2) by linarith]
      exact ⟨by norm_num, by omega⟩

theorem IsNearestEven.mono {x y : ℚ} {n m : ℤ} (hx : IsNearestEven x n) (hy : IsNearestEven y m)
    (le : x ≤ y) : n ≤ m := by
  by_contra! less
  have gap : (m : ℚ) + 1 ≤ n := by exact_mod_cast less
  have hn := abs_le.mp (show |x - n| ≤ 1 / 2 by linarith [hx.le])
  have hm := abs_le.mp (show |y - m| ≤ 1 / 2 by linarith [hy.le])
  -- both lie half a unit away, between two neighbours that would both have to be even
  have apart : n = m + 1 := by
    have : (n : ℚ) ≤ m + 1 := by linarith
    exact le_antisymm (by exact_mod_cast this) less
  have evenN : n % 2 = 0 := by
    refine hx.elim (fun near => ?_) (·.2)
    have := abs_lt.mp (show |x - n| < 1 / 2 by linarith)
    linarith
  have evenM : m % 2 = 0 := by
    refine hy.elim (fun near => ?_) (·.2)
    have := abs_lt.mp (show |y - m| < 1 / 2 by linarith)
    linarith
  omega

theorem IsNearestEven.eq {x : ℚ} {n : ℤ} (near : IsNearestEven x n) : nearestEven x = n :=
  le_antisymm ((isNearestEven_nearestEven x).mono near le_rfl)
    (near.mono (isNearestEven_nearestEven x) le_rfl)

theorem nearestEven_mono {x y : ℚ} (le : x ≤ y) : nearestEven x ≤ nearestEven y :=
  (isNearestEven_nearestEven x).mono (isNearestEven_nearestEven y) le

@[simp] theorem nearestEven_intCast (n : ℤ) : nearestEven (n : ℚ) = n :=
  IsNearestEven.eq (.inl (by norm_num))

theorem nearestEven_le {x : ℚ} {n : ℤ} (le : x ≤ n) : nearestEven x ≤ n :=
  (nearestEven_mono le).trans (nearestEven_intCast n).le

theorem le_nearestEven {x : ℚ} {n : ℤ} (le : n ≤ x) : n ≤ nearestEven x :=
  (nearestEven_intCast n).ge.trans (nearestEven_mono le)

theorem nearestEven_neg (x : ℚ) : nearestEven (-x) = -nearestEven x := by
  apply IsNearestEven.eq
  have swap : |-x - ((-nearestEven x : ℤ) : ℚ)| = |x - nearestEven x| := by
    rw [← abs_neg]
    push_cast
    ring_nf
  unfold IsNearestEven
  rw [swap]
  exact (isNearestEven_nearestEven x).imp_right fun tie => ⟨tie.1, by omega⟩

def Spaced (x : ℚ) (k : ℕ) : Prop := |x| < 2 ^ (53 + k) ∧ (k = 0 ∨ 2 ^ (52 + k) ≤ |x|)

theorem Spaced.le {x y : ℚ} {k l : ℕ} (hx : Spaced x k) (hy : Spaced y l) (le : |x| ≤ |y|) :
    k ≤ l := by
  by_contra! less
  rcases hx.2 with zero | low
  · omega
  · have : (2 : ℚ) ^ (53 + l) ≤ 2 ^ (52 + k) := pow_le_pow_right₀ (by norm_num) (by omega)
    linarith [hy.1]

theorem Spaced.unique {x : ℚ} {k l : ℕ} (hk : Spaced x k) (hl : Spaced x l) : k = l :=
  le_antisymm (hk.le hl le_rfl) (hl.le hk le_rfl)

/-- How far apart doubles are around `x`, as a power of two. -/
def spacing (x : ℚ) : ℕ := Nat.log2 ⌊|x|⌋₊ - 52

theorem spaced_spacing (x : ℚ) : Spaced x (spacing x) := by
  unfold Spaced spacing
  have below : |x| < ⌊|x|⌋₊ + 1 := Nat.lt_floor_add_one _
  have above : (⌊|x|⌋₊ : ℚ) ≤ |x| := Nat.floor_le (abs_nonneg x)
  generalize ⌊|x|⌋₊ = n at below above
  have upper : ((n + 1 : ℕ) : ℚ) ≤ 2 ^ (n.log2 + 1) := by
    exact_mod_cast Nat.lt_log2_self
  push_cast at upper
  constructor
  · calc |x| < 2 ^ (n.log2 + 1) := by linarith
      _ ≤ 2 ^ (53 + (n.log2 - 52)) := pow_le_pow_right₀ (by norm_num) (by omega)
  · by_cases small : n.log2 ≤ 52
    · exact .inl (by omega)
    · right
      have nonzero : n ≠ 0 := by
        rintro rfl
        simp at small
      have lower : ((2 ^ n.log2 : ℕ) : ℚ) ≤ n := by
        exact_mod_cast Nat.log2_self_le nonzero
      rw [show 52 + (n.log2 - 52) = n.log2 by omega]
      push_cast at lower
      linarith

theorem Spaced.eq {x : ℚ} {k : ℕ} (spaced : Spaced x k) : spacing x = k :=
  (spaced_spacing x).unique spaced

/-- The nearest multiple of the spacing around `x`, an even one on a tie. -/
def onGrid (x : ℚ) : ℤ := nearestEven (x / 2 ^ spacing x) * 2 ^ spacing x

theorem onGrid_neg (x : ℚ) : onGrid (-x) = -onGrid x := by
  have same : spacing (-x) = spacing x := by simp only [spacing, abs_neg]
  rw [onGrid, onGrid, same, neg_div, nearestEven_neg, Int.neg_mul]

theorem onGrid_of_multiple {m : ℤ} (k : ℕ) (short : |m| < 2 ^ 53) :
    onGrid ((m : ℚ) * 2 ^ k) = m * 2 ^ k := by
  have spaced := spaced_spacing ((m : ℚ) * 2 ^ k)
  unfold onGrid
  generalize spacing ((m : ℚ) * 2 ^ k) = l at spaced
  have coarse : l ≤ k := by
    rcases spaced.2 with zero | low
    · omega
    · have short : |(m : ℚ)| < 2 ^ 53 := by exact_mod_cast short
      rw [abs_mul, abs_of_pos (show (0 : ℚ) < 2 ^ k by positivity)] at low
      have : (2 : ℚ) ^ (52 + l) < 2 ^ (53 + k) := by
        rw [pow_add 2 53 k]
        exact low.trans_lt (mul_lt_mul_of_pos_right short (by positivity))
      have := (pow_lt_pow_iff_right₀ (by norm_num : (1 : ℚ) < 2)).mp this
      omega
  obtain ⟨d, rfl⟩ := Nat.exists_eq_add_of_le coarse
  have whole : (m : ℚ) * 2 ^ (l + d) / 2 ^ l = ((m * 2 ^ d : ℤ) : ℚ) := by
    push_cast
    rw [pow_add]
    field_simp
  rw [whole, nearestEven_intCast, pow_add]
  ring

theorem onGrid_zero : onGrid 0 = 0 := by
  have := onGrid_of_multiple (m := 0) 0 (by norm_num)
  simpa using this

theorem onGrid_near (x : ℚ) : 2 * |x - onGrid x| ≤ 2 ^ spacing x := by
  have near := (isNearestEven_nearestEven (x / 2 ^ spacing x)).le
  have positive : (0 : ℚ) < 2 ^ spacing x := by positivity
  have scaled : x - onGrid x =
      (x / 2 ^ spacing x - nearestEven (x / 2 ^ spacing x)) * 2 ^ spacing x := by
    rw [onGrid]
    push_cast
    field_simp
  rw [scaled, abs_mul, abs_of_pos positive]
  nlinarith

theorem onGrid_nonneg {x : ℚ} (nonneg : 0 ≤ x) : 0 ≤ onGrid x := by
  have : 0 ≤ nearestEven (x / 2 ^ spacing x) := by
    refine le_nearestEven ?_
    push_cast
    positivity
  unfold onGrid
  positivity

theorem onGrid_mono_of_nonneg {x y : ℚ} (nonneg : 0 ≤ x) (le : x ≤ y) : onGrid x ≤ onGrid y := by
  have hx := spaced_spacing x
  have hy := spaced_spacing y
  have order := hx.le hy (by rwa [abs_of_nonneg nonneg, abs_of_nonneg (nonneg.trans le)])
  unfold onGrid
  generalize spacing x = k at hx order
  generalize spacing y = l at hy order
  rcases order.eq_or_lt with rfl | finer
  · gcongr
    exact nearestEven_mono (by gcongr)
  -- a power of two separates the two binades, and rounding does not cross it
  · have below : nearestEven (x / 2 ^ k) ≤ 2 ^ 53 := by
      refine nearestEven_le ((div_le_iff₀ (by positivity)).mpr ?_)
      calc x ≤ 2 ^ (53 + k) := (le_abs_self x).trans hx.1.le
        _ = ((2 ^ 53 : ℤ) : ℚ) * 2 ^ k := by rw [pow_add, Int.cast_pow, Int.cast_ofNat]
    have above : 2 ^ 52 ≤ nearestEven (y / 2 ^ l) := by
      refine le_nearestEven ((le_div_iff₀ (by positivity)).mpr ?_)
      have far := hy.2.resolve_left (by omega)
      rw [abs_of_nonneg (nonneg.trans le)] at far
      calc ((2 ^ 52 : ℤ) : ℚ) * 2 ^ l = 2 ^ (52 + l) := by
            rw [pow_add, Int.cast_pow, Int.cast_ofNat]
        _ ≤ y := far
    calc nearestEven (x / 2 ^ k) * 2 ^ k ≤ 2 ^ 53 * 2 ^ k := by gcongr
      _ = 2 ^ (53 + k) := (pow_add 2 53 k).symm
      _ ≤ 2 ^ (52 + l) := pow_le_pow_right₀ (by norm_num) (by omega)
      _ = 2 ^ 52 * 2 ^ l := pow_add 2 52 l
      _ ≤ nearestEven (y / 2 ^ l) * 2 ^ l := by gcongr

theorem onGrid_mono {x y : ℚ} (le : x ≤ y) : onGrid x ≤ onGrid y := by
  rcases le_total 0 x with nonneg | nonpos
  · exact onGrid_mono_of_nonneg nonneg le
  · have mirrored {z : ℚ} (nonpos : z ≤ 0) : onGrid z = -onGrid (-z) := by
      rw [← onGrid_neg, neg_neg]
    rcases le_total 0 y with nonneg | nonpos'
    · rw [mirrored nonpos]
      linarith [onGrid_nonneg nonneg, onGrid_nonneg (neg_nonneg.mpr nonpos)]
    · rw [mirrored nonpos, mirrored nonpos']
      exact neg_le_neg (onGrid_mono_of_nonneg (by linarith) (by linarith))

/-- Where the doubles end, `2 ^ 1024` in units: a sum that rounds to this is infinite. -/
def overflow : ℤ := 2 ^ 2098

theorem overflow_pos : 0 < overflow := by
  unfold overflow
  positivity

def clamp (n : ℤ) : ℤ := max (-overflow) (min overflow n)

theorem clamp_of_inside {n : ℤ} (inside : |n| ≤ overflow) : clamp n = n := by
  have := abs_le.mp inside
  unfold clamp
  omega

/-- The double that stands for a rational. -/
def rounded (x : ℚ) : ℤ := clamp (onGrid x)

theorem rounded_mono {x y : ℚ} (le : x ≤ y) : rounded x ≤ rounded y :=
  max_le_max_left _ (min_le_min_left _ (onGrid_mono le))

theorem rounded_le_overflow (x : ℚ) : rounded x ≤ overflow :=
  max_le (by linarith [overflow_pos]) (min_le_left _ _)

theorem rounded_neg (x : ℚ) : rounded (-x) = -rounded x := by
  have := overflow_pos
  unfold rounded clamp
  rw [onGrid_neg]
  omega

/-- The doubles, infinities included: what rounding leaves as it is. -/
def IsDouble (n : ℤ) : Prop := rounded n = n

theorem IsDouble.of_multiple {m : ℤ} {k : ℕ} (short : |m| < 2 ^ 53)
    (inside : |m * 2 ^ k| ≤ overflow) : IsDouble (m * 2 ^ k) := by
  unfold IsDouble rounded
  push_cast
  rw [onGrid_of_multiple k short, clamp_of_inside inside]

theorem isDouble_overflow : IsDouble overflow := by
  have := IsDouble.of_multiple (m := 1) (k := 2098) (by norm_num) (by
    rw [one_mul, abs_of_nonneg (by positivity)]
    exact le_rfl)
  rwa [one_mul] at this

theorem IsDouble.neg {n : ℤ} (double : IsDouble n) : IsDouble (-n) := by
  unfold IsDouble at *
  push_cast
  rw [rounded_neg, double]

theorem isDouble_zero : IsDouble 0 := by
  unfold IsDouble rounded
  rw [Int.cast_zero, onGrid_zero, clamp_of_inside (by simpa using overflow_pos.le)]

theorem IsDouble.le_rounded {n : ℤ} {x : ℚ} (double : IsDouble n) (le : n ≤ x) : n ≤ rounded x :=
  double.symm.le.trans (rounded_mono le)

theorem IsDouble.rounded_le {n : ℤ} {x : ℚ} (double : IsDouble n) (le : x ≤ n) : rounded x ≤ n :=
  (rounded_mono le).trans double.le

/-- A sum comes out above a number if more than `2 ^ -53` of that number is added. -/
theorem lt_rounded_add {t d : ℤ} (inside : t < overflow) (enough : |t| < 2 ^ 53 * d) :
    t < rounded ((t + d : ℤ) : ℚ) := by
  have positive : 0 < d := by
    have := abs_nonneg t
    linarith
  suffices t < onGrid ((t + d : ℤ) : ℚ) by
    unfold rounded clamp
    omega
  have spaced := spaced_spacing ((t + d : ℤ) : ℚ)
  have near := onGrid_near ((t + d : ℤ) : ℚ)
  generalize spacing ((t + d : ℤ) : ℚ) = k at spaced near
  by_cases fine : 2 ^ k < 2 * d
  · have : 2 * |t + d - onGrid ((t + d : ℤ) : ℚ)| ≤ 2 ^ k := by exact_mod_cast near
    linarith [le_abs_self (t + d - onGrid ((t + d : ℤ) : ℚ))]
  -- what is added is so small that the sum has just left the binade of `t`
  · have coarse : k ≠ 0 := by
      rintro rfl
      omega
    have far : 2 ^ (52 + k) ≤ |t + d| := by exact_mod_cast spaced.2.resolve_left coarse
    have short : |t| < 2 ^ (52 + k) := by
      rw [pow_add]
      linarith
    have above : 2 ^ (52 + k) ≤ t + d := by
      rcases abs_cases (t + d) with ⟨same, -⟩ | ⟨negated, below⟩
      · rwa [same] at far
      · linarith [neg_abs_le t]
    have kept : onGrid (((1 : ℤ) : ℚ) * 2 ^ (52 + k)) = 1 * 2 ^ (52 + k) :=
      onGrid_of_multiple (52 + k) (by norm_num)
    calc t ≤ |t| := le_abs_self t
      _ < 2 ^ (52 + k) := short
      _ = onGrid (((1 : ℤ) : ℚ) * 2 ^ (52 + k)) := by rw [kept, one_mul]
      _ ≤ onGrid ((t + d : ℤ) : ℚ) := onGrid_mono (by
        rw [Int.cast_one, one_mul]
        exact_mod_cast above)

end ProceduralScene.Binary64
