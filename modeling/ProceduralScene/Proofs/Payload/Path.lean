import ProceduralScene.Payload.Motion
import ProceduralScene.Proofs.Binary64.Arithmetic

/-! Where a motion is at a time between its first keyframe and its last: on the segment that the
time falls into, between the two ends of it. The time is not clamped, though, and a tolerance lets
through times beyond both ends, where the last or the first segment is prolonged. -/
namespace ProceduralScene.Motion

open Binary64

theorem segmentStart_reached (keyframes : Array Keyframe) (time : Float) {i j : Nat}
    (h : i < keyframes.size) (inside : j < keyframes.size)
    (starts : segmentStart keyframes time i h = j) : j = 0 ∨ ¬keyframes[j].time > time := by
  induction i with
  | zero => exact .inl starts.symm
  | succ i ih =>
    unfold segmentStart at starts
    split at starts
    · exact ih _ starts
    · subst starts
      exact .inr ‹_›

theorem segmentStart_passed (keyframes : Array Keyframe) (time : Float) {i j : Nat}
    (h : i < keyframes.size) (inside : j < keyframes.size)
    (later : segmentStart keyframes time i h < j) (searched : j ≤ i) :
    keyframes[j].time > time := by
  induction i with
  | zero => omega
  | succ i ih =>
    unfold segmentStart at later
    split at later
    · rcases searched.eq_or_lt with rfl | earlier
      · assumption
      · exact ih _ later (by omega)
    · omega

def share (start stop : Keyframe) (time : Float) : Float :=
  if stop.time - start.time == 0 then 1 else (time - start.time) / (stop.time - start.time)

def coordinates : List (Point → Float) := [Point.x, Point.y, Point.z]

theorem forall_coordinates {P : (Point → Float) → Prop} :
    (∀ c ∈ coordinates, P c) ↔ P Point.x ∧ P Point.y ∧ P Point.z := by
  simp [coordinates]

theorem coordinate_between (start stop : Keyframe) (time : Float) :
    ∀ c ∈ coordinates, c (between start stop time) =
      c start.position + (c stop.position - c start.position) * share start stop time :=
  forall_coordinates.mpr ⟨rfl, rfl, rfl⟩

theorem share_bounds {start stop : Keyframe} {time : Float} (started : start.time ≤ time)
    (ahead : time ≤ stop.time) (finite : start.time.isFinite = true)
    (finite' : stop.time.isFinite = true) (span : (stop.time - start.time).isFinite = true) :
    0 ≤ units (share start stop time) ∧ units (share start stop time) ≤ units 1 := by
  have inside : time.isFinite = true := isFinite_of_le_of_le started ahead finite finite'
  rw [le_iff] at started ahead
  unfold share
  split_ifs with none
  · rw [units_one]
    exact ⟨by positivity, le_rfl⟩
  · have nonzero : units (stop.time - start.time) ≠ 0 := by
      rw [beq_iff, units_zero] at none
      have := overflow_pos
      omega
    refine units_div_bounds ?_ ?_ span nonzero
    · rw [units_sub inside finite]
      exact isDouble_zero.le_rounded (by exact_mod_cast (by omega))
    · rw [units_sub inside finite, units_sub finite' finite]
      exact rounded_mono (by exact_mod_cast (by omega))

structure Arrives (a b : Float) : Prop where
  start : a.isFinite = true
  stop : b.isFinite = true
  exact : (a + (b - a) == b) = true

theorem Arrives.way {a b : Float} (arrives : Arrives a b) : (b - a).isFinite = true := by
  by_contra infinite
  have number : units (b - a) ≤ overflow := by
    rw [units_sub arrives.stop arrives.start]
    exact rounded_le_overflow _
  have same := (beq_iff.mp arrives.exact).1
  rw [units_add_infinite arrives.start number infinite] at same
  exact infinite (isFinite_iff.mpr (same ▸ isFinite_iff.mp arrives.stop))

theorem between_bounds {c : Point → Float} (axis : c ∈ coordinates) {start stop : Keyframe}
    {time : Float} (started : start.time ≤ time) (ahead : time ≤ stop.time)
    (finite : start.time.isFinite = true) (finite' : stop.time.isFinite = true)
    (span : (stop.time - start.time).isFinite = true)
    (arrives : Arrives (c start.position) (c stop.position)) :
    min (units (c start.position)) (units (c stop.position)) ≤ units (c (between start stop time)) ∧
      units (c (between start stop time)) ≤
        max (units (c start.position)) (units (c stop.position)) := by
  obtain ⟨nonneg, le⟩ := share_bounds started ahead finite finite' span
  have bounds := units_lerp_bounds arrives.start arrives.way nonneg le
  rw [coordinate_between start stop time c axis, ← (beq_iff.mp arrives.exact).1]
  exact bounds

/-- A point in the box that the keyframes span. -/
def Spanned (keyframes : Array Keyframe) (p : Point) : Prop :=
  ∀ c ∈ coordinates, (∃ k ∈ keyframes, c k.position ≤ c p) ∧ ∃ k ∈ keyframes, c p ≤ c k.position

theorem spanned_between {keyframes : Array Keyframe} {start stop : Keyframe}
    (left : start ∈ keyframes) (right : stop ∈ keyframes) {time : Float}
    (started : start.time ≤ time) (ahead : time ≤ stop.time)
    (finite : start.time.isFinite = true) (finite' : stop.time.isFinite = true)
    (span : (stop.time - start.time).isFinite = true)
    (arrives : ∀ c ∈ coordinates, Arrives (c start.position) (c stop.position)) :
    Spanned keyframes (between start stop time) := by
  intro c axis
  obtain ⟨low, high⟩ := between_bounds axis started ahead finite finite' span (arrives c axis)
  have startNumber := number_of_finite (arrives c axis).start
  have stopNumber := number_of_finite (arrives c axis).stop
  constructor
  · rcases min_choice (units (c start.position)) (units (c stop.position)) with least | least
    · exact ⟨start, left, le_iff.mpr (by omega)⟩
    · exact ⟨stop, right, le_iff.mpr (by omega)⟩
  · rcases max_choice (units (c start.position)) (units (c stop.position)) with most | most
    · exact ⟨start, left, le_iff.mpr (by omega)⟩
    · exact ⟨stop, right, le_iff.mpr (by omega)⟩

structure Orderly (m : Motion) : Prop where
  times : ∀ k ∈ m.keyframes, k.time.isFinite = true
  places : ∀ k ∈ m.keyframes, ∀ c ∈ coordinates, (c k.position).isFinite = true
  sorted : m.keyframes.toList.Pairwise (·.time ≤ ·.time)

namespace Orderly

variable {m : Motion}

theorem time_le (orderly : m.Orderly) {i j : Nat} (le : i ≤ j) (inside : j < m.keyframes.size) :
    units m.keyframes[i].time ≤ units m.keyframes[j].time := by
  rcases le.eq_or_lt with rfl | less
  · exact le_rfl
  · have ordered := List.pairwise_iff_getElem.mp orderly.sorted i j
      (by rw [Array.length_toList]; omega) (by rwa [Array.length_toList]) less
    rw [Array.getElem_toList, Array.getElem_toList] at ordered
    exact (le_iff.mp ordered).1

theorem isFinite_span (orderly : m.Orderly) {i : Nat} (inside : i + 1 < m.keyframes.size)
    (whole : (m.keyframes[m.keyframes.size - 1].time - m.keyframes[0].time).isFinite = true) :
    (m.keyframes[i + 1].time - m.keyframes[i].time).isFinite = true := by
  have time {j : Nat} (inside : j < m.keyframes.size) : m.keyframes[j].time.isFinite = true :=
    orderly.times _ (Array.getElem_mem inside)
  have first := orderly.time_le (Nat.zero_le i) (by omega)
  have step := orderly.time_le (show i ≤ i + 1 by omega) inside
  have last := orderly.time_le (show i + 1 ≤ m.keyframes.size - 1 by omega) (by omega)
  refine isFinite_of_between ?_ whole
  rw [units_sub (time inside) (time (by omega)), units_sub (time (by omega)) (time (by omega))]
  have nonneg : 0 ≤ rounded (units m.keyframes[i + 1].time - units m.keyframes[i].time : ℤ) :=
    isDouble_zero.le_rounded (by exact_mod_cast (by omega))
  have le : rounded (units m.keyframes[i + 1].time - units m.keyframes[i].time : ℤ) ≤
      rounded (units m.keyframes[m.keyframes.size - 1].time - units m.keyframes[0].time : ℤ) :=
    rounded_mono (by exact_mod_cast (by omega))
  rwa [abs_of_nonneg nonneg, abs_of_nonneg (nonneg.trans le)]

end Orderly

/-- A time between the first keyframe and the last lies on the segment found for it. -/
theorem segment_around {m : Motion} (orderly : m.Orderly) {time : Float} {i : Nat}
    (many : m.keyframes.size - 2 < m.keyframes.size)
    (found : segmentStart m.keyframes time (m.keyframes.size - 2) many = i)
    (inside : i + 1 < m.keyframes.size) (begun : m.keyframes[0].time ≤ time)
    (lasts : time ≤ m.keyframes[m.keyframes.size - 1].time) :
    m.keyframes[i].time ≤ time ∧ time ≤ m.keyframes[i + 1].time := by
  have number {j : Nat} (inside : j < m.keyframes.size) : units m.keyframes[j].time ≤ overflow :=
    number_of_finite (orderly.times _ (Array.getElem_mem inside))
  have last := (le_iff.mp lasts).2
  have real : units time ≤ overflow := (le_iff.mp lasts).1.trans last
  constructor
  · rcases segmentStart_reached m.keyframes time many (by omega) found with rfl | reached
    · exact begun
    · have start := number (show i < m.keyframes.size by omega)
      rw [gt_iff_lt, lt_iff] at reached
      rw [le_iff]
      omega
  · by_cases final : i + 1 = m.keyframes.size - 1
    · simpa only [final] using lasts
    · have passed := segmentStart_passed m.keyframes time many inside (by omega) (by omega)
      rw [gt_iff_lt, lt_iff] at passed
      rw [le_iff]
      omega

theorem positionAt_of_many {m : Motion} (many : 2 ≤ m.keyframes.size) (time tolerance : Float) :
    ∃ i, ∃ inside : i + 1 < m.keyframes.size,
      segmentStart m.keyframes time (m.keyframes.size - 2) (by omega) = i ∧
        m.positionAt time tolerance =
          if m.keyframes[i].time ≤ time + tolerance ∧ time - tolerance ≤ m.keyframes[i + 1].time
          then some (between m.keyframes[i] m.keyframes[i + 1] time) else none := by
  have last := segmentStart_le m.keyframes time (m.keyframes.size - 2) (by omega)
  refine ⟨segmentStart m.keyframes time (m.keyframes.size - 2) (by omega), by omega, rfl, ?_⟩
  rw [positionAt, dif_pos many]

theorem not_gt_tolerance {t time tolerance : Float} (finite : t.isFinite = true)
    (finite' : time.isFinite = true) (begun : t ≤ time) (lasts : time ≤ t)
    (nonneg : 0 ≤ tolerance) : ¬(t - time).abs > tolerance := by
  have gap : units (t - time) = 0 := by
    have same : units t - units time = 0 := by
      rw [le_iff] at begun lasts
      omega
    rw [units_sub finite finite', same]
    exact isDouble_zero
  have inside : (t - time).isFinite = true := by
    rw [isFinite_iff, gap]
    exact overflow_pos
  rw [gt_iff_lt, lt_iff, units_abs inside, gap, abs_zero]
  rw [le_iff, units_zero] at nonneg
  omega

/-- From its first keyframe to its last a motion stays in the box that its keyframes span, as long
as the way to each of them, as it is computed, ends there. -/
theorem positionAt_spanned {m : Motion} (orderly : m.Orderly) (stands : 0 < m.keyframes.size)
    (whole : (m.keyframes[m.keyframes.size - 1].time - m.keyframes[0].time).isFinite = true)
    (exact : ∀ i (_ : i + 1 < m.keyframes.size), ∀ c ∈ coordinates,
      (c m.keyframes[i].position + (c m.keyframes[i + 1].position - c m.keyframes[i].position) ==
        c m.keyframes[i + 1].position) = true)
    {time tolerance : Float} (begun : m.keyframes[0].time ≤ time)
    (lasts : time ≤ m.keyframes[m.keyframes.size - 1].time) (nonneg : 0 ≤ tolerance) :
    ∃ p, m.positionAt time tolerance = some p ∧ Spanned m.keyframes p := by
  have finite {j : Nat} (inside : j < m.keyframes.size) : m.keyframes[j].time.isFinite = true :=
    orderly.times _ (Array.getElem_mem inside)
  have place {j : Nat} (inside : j < m.keyframes.size) {c : Point → Float}
      (axis : c ∈ coordinates) : (c m.keyframes[j].position).isFinite = true :=
    orderly.places _ (Array.getElem_mem inside) c axis
  have inside : time.isFinite = true :=
    isFinite_of_le_of_le begun lasts (finite stands) (finite (by omega))
  by_cases many : 2 ≤ m.keyframes.size
  · obtain ⟨i, next, found, eq⟩ := positionAt_of_many many time tolerance
    obtain ⟨started, ahead⟩ := segment_around orderly (by omega) found next begun lasts
    have window : m.keyframes[i].time ≤ time + tolerance ∧
        time - tolerance ≤ m.keyframes[i + 1].time :=
      ⟨Binary64.le_trans started (Binary64.le_add_self inside nonneg),
        Binary64.le_trans (Binary64.sub_le_self inside nonneg) ahead⟩
    have arrives (c) (axis : c ∈ coordinates) :
        Arrives (c m.keyframes[i].position) (c m.keyframes[i + 1].position) :=
      ⟨place (by omega) axis, place next axis, exact i next c axis⟩
    rw [eq, if_pos window]
    exact ⟨_, rfl, spanned_between (Array.getElem_mem _) (Array.getElem_mem _) started ahead
      (finite (by omega)) (finite next) (orderly.isFinite_span next whole) arrives⟩
  · have single : m.keyframes.size - 1 = 0 := by omega
    simp only [single] at lasts
    have near := not_gt_tolerance (finite stands) inside begun lasts nonneg
    have only : m.positionAt time tolerance = some m.keyframes[0].position := by
      rw [positionAt, dif_neg many, Array.getElem?_eq_getElem stands]
      exact if_neg near
    refine ⟨_, only, fun c axis => ?_⟩
    have real := le_iff.mpr ⟨le_rfl, number_of_finite (place stands axis)⟩
    exact ⟨⟨_, Array.getElem_mem stands, real⟩, ⟨_, Array.getElem_mem stands, real⟩⟩

/-- Rounding may take the way to a keyframe beyond it. -/
example : (1.0000000000000002 : Float) <
    -1.1102230246251565e-16 + (1.0000000000000002 - -1.1102230246251565e-16) := by
  decide +kernel

def dash (duration : Float) : Motion where
  keyframes := #[⟨0, 0, 0, 0, "", 1.5⟩, ⟨10, 0, 0, duration, "", 1.5⟩]
  url := none
  radius := 1
  kind := "pedestrian"

theorem orderly_dash {duration : Float} (finite : duration.isFinite = true)
    (nonneg : 0 ≤ duration) : (dash duration).Orderly where
  times k known := by
    simp only [dash, List.mem_toArray, List.mem_cons, List.not_mem_nil, or_false] at known
    rcases known with rfl | rfl
    · decide +kernel
    · exact finite
  places k known := by
    simp only [dash, List.mem_toArray, List.mem_cons, List.not_mem_nil, or_false] at known
    have zero : (0 : Float).isFinite = true := by decide +kernel
    have ten : (10 : Float).isFinite = true := by decide +kernel
    rcases known with rfl | rfl
    · exact forall_coordinates.mpr ⟨zero, zero, zero⟩
    · exact forall_coordinates.mpr ⟨ten, zero, zero⟩
  sorted := by simpa [dash] using nonneg

theorem dash_spanned :
    ∃ p, (dash 1).positionAt 0.5 0.101 = some p ∧ Spanned (dash 1).keyframes p := by
  refine positionAt_spanned (orderly_dash (by decide +kernel) (by decide +kernel)) (by decide)
    (by decide +kernel) (fun i next => ?_) (by decide +kernel) (by decide +kernel)
    (by decide +kernel)
  obtain rfl : i = 0 := by
    change i + 1 < 2 at next
    omega
  have none : ((0 : Float) + (0 - 0) == 0) = true := by decide +kernel
  have all : ((0 : Float) + (10 - 0) == 10) = true := by decide +kernel
  exact forall_coordinates.mpr ⟨all, none, none⟩

/-- Shortly after its end a fast motion is found far beyond its last keyframe. -/
theorem dash_overshoots :
    (dash 0.01).Orderly ∧ (0 : Float) ≤ 0.101 ∧
      ∃ p, (dash 0.01).positionAt 0.05 0.101 = some p ∧ ¬Spanned (dash 0.01).keyframes p := by
  refine ⟨orderly_dash (by decide +kernel) (by decide +kernel), by decide +kernel,
    between ⟨0, 0, 0, 0, "", 1.5⟩ ⟨10, 0, 0, 0.01, "", 1.5⟩ 0.05, ?_, fun spanned => ?_⟩
  · rw [positionAt, dif_pos (by decide)]
    exact if_pos (by decide +kernel)
  · obtain ⟨k, known, le⟩ := (spanned Point.x (by simp [coordinates])).2
    simp only [dash, List.mem_toArray, List.mem_cons, List.not_mem_nil, or_false] at known
    rcases known with rfl | rfl
    · exact absurd le (by decide +kernel)
    · exact absurd le (by decide +kernel)

end ProceduralScene.Motion
