import ProceduralScene.Proofs.Payload.Path

/-! Which segment of a motion is found for a time. The search goes backwards from the last segment
and stops at the first start that is not after the time. It asks nothing of the keyframes: their
times may be equal, out of order or not numbers. -/
namespace ProceduralScene.Motion

/-- The last keyframe, of those that another one follows, that is not after the time. -/
def LastReached (keyframes : Array Keyframe) (time : Float) (i : Nat) : Prop :=
  ∃ inside : i < keyframes.size, i + 1 < keyframes.size ∧ ¬keyframes[i].time > time ∧
    ∀ j, ∀ known : j < keyframes.size, i < j → j + 1 < keyframes.size → keyframes[j].time > time

def NoneReached (keyframes : Array Keyframe) (time : Float) : Prop :=
  ∀ j, ∀ known : j < keyframes.size, j + 1 < keyframes.size → keyframes[j].time > time

theorem segmentStart_searched {keyframes : Array Keyframe} (time : Float) {i last : Nat}
    (many : last + 2 = keyframes.size)
    (found : segmentStart keyframes time last (by omega) = i) :
    LastReached keyframes time i ∨ i = 0 ∧ NoneReached keyframes time := by
  have le : i ≤ last := found ▸ segmentStart_le keyframes time last (by omega)
  have passed (j : Nat) (known : j < keyframes.size) (later : i < j)
      (next : j + 1 < keyframes.size) : keyframes[j].time > time :=
    segmentStart_passed keyframes time (by omega) known (found ▸ later) (by omega)
  by_cases reached : keyframes[i].time > time
  · have first := segmentStart_reached keyframes time (by omega) (by omega) found
    obtain rfl := first.resolve_right fun before => before reached
    refine .inr ⟨rfl, fun j known next => ?_⟩
    rcases Nat.eq_zero_or_pos j with rfl | later
    · exact reached
    · exact passed j known later next
  · exact .inl ⟨by omega, by omega, reached, passed⟩

/-- The same search, where it may fail to find a keyframe at an index. -/
def segmentStart? (keyframes : Array Keyframe) (time : Float) : Nat → Option Nat
  | 0 => some 0
  | i + 1 => do
    if (← keyframes[i + 1]?).time > time then segmentStart? keyframes time i else return i + 1

theorem segmentStart?_eq {keyframes : Array Keyframe} (time : Float) {i : Nat}
    (h : i < keyframes.size) :
    segmentStart? keyframes time i = some (segmentStart keyframes time i h) := by
  induction i with
  | zero => rfl
  | succ i ih =>
    rw [segmentStart?, segmentStart, Array.getElem?_eq_getElem h, Option.bind_eq_bind,
      Option.bind_some]
    split
    · exact ih _
    · rfl

def positionAt? (m : Motion) (time tolerance : Float) : Option (Option Point) :=
  match m.keyframes.size with
  | 0 => return none
  | 1 => do
    let only ← m.keyframes[0]?
    return if (only.time - time).abs > tolerance then none else some only.position
  | last + 2 => do
    let i ← segmentStart? m.keyframes time last
    let start ← m.keyframes[i]?
    let stop ← m.keyframes[i + 1]?
    return if start.time ≤ time + tolerance ∧ time - tolerance ≤ stop.time then
      some (between start stop time) else none

theorem positionAt?_eq (m : Motion) (time tolerance : Float) :
    m.positionAt? time tolerance = some (m.positionAt time tolerance) := by
  unfold positionAt?
  split
  next none =>
    rw [positionAt, dif_neg (by omega), Array.getElem?_eq_none (by omega)]
    rfl
  next one =>
    rw [positionAt, dif_neg (by omega), Array.getElem?_eq_getElem (by omega)]
    rfl
  next last many =>
    have size : m.keyframes.size - 2 = last := by omega
    obtain ⟨i, next, found, eq⟩ := positionAt_of_many (m := m) (by omega) time tolerance
    simp only [size] at found
    rw [segmentStart?_eq time (by omega), found, eq]
    simp only [Option.bind_eq_bind, Option.bind_some, Array.getElem?_eq_getElem next,
      Array.getElem?_eq_getElem (show i < m.keyframes.size by omega)]
    rfl

/-- With two keyframes or more, the position is looked for on the segment of the last start that is
not after the time, or on the first segment if there is no such start. There is none exactly if
the time is further from that segment than the tolerance, and every keyframe that the search looks
at is there. -/
theorem positionAt_searches {m : Motion} (many : 2 ≤ m.keyframes.size) (time tolerance : Float) :
    m.positionAt? time tolerance = some (m.positionAt time tolerance) ∧
      ∃ i, ∃ (known : i < m.keyframes.size) (next : i + 1 < m.keyframes.size),
        (LastReached m.keyframes time i ∨ i = 0 ∧ NoneReached m.keyframes time) ∧
          (m.positionAt time tolerance = none ↔
            ¬m.keyframes[i].time ≤ time + tolerance ∨
              ¬time - tolerance ≤ m.keyframes[i + 1].time) ∧
          ∀ p, m.positionAt time tolerance = some p →
            p = between m.keyframes[i] m.keyframes[i + 1] time := by
  obtain ⟨i, next, found, eq⟩ := positionAt_of_many many time tolerance
  refine ⟨m.positionAt?_eq time tolerance, i, by omega, next,
    segmentStart_searched time (by omega) found, ?_, fun p given => ?_⟩
  · rw [eq, ← not_and_or]
    split_ifs with window
    · exact ⟨nofun, fun outside => absurd window outside⟩
    · exact ⟨fun _ => window, fun _ => rfl⟩
  · rw [eq] at given
    split_ifs at given
    exact (Option.some.inj given).symm

/-- The second of the times is no number, and the next two are the same. -/
def stutter : Motion where
  keyframes := #[⟨0, 0, 0, 0, "", 1⟩, ⟨1, 0, 0, 0 / 0, "", 1⟩, ⟨2, 0, 0, 1, "", 1⟩,
    ⟨4, 0, 0, 1, "", 1⟩, ⟨5, 0, 0, 2, "", 1⟩]
  url := none
  radius := 1
  kind := "pedestrian"

/-- At 1.5 it is on the way to its last keyframe. At 0.5 the search stops at the time that is no
number, so it is nowhere. -/
theorem stutter_searches :
    2 ≤ stutter.keyframes.size ∧
      (stutter.positionAt? 1.5 0 = some (stutter.positionAt 1.5 0) ∧
        ∃ i, ∃ (known : i < stutter.keyframes.size) (next : i + 1 < stutter.keyframes.size),
          (LastReached stutter.keyframes 1.5 i ∨ i = 0 ∧ NoneReached stutter.keyframes 1.5) ∧
            (stutter.positionAt 1.5 0 = none ↔
              ¬stutter.keyframes[i].time ≤ 1.5 + 0 ∨
                ¬1.5 - 0 ≤ stutter.keyframes[i + 1].time) ∧
            ∀ p, stutter.positionAt 1.5 0 = some p →
              p = between stutter.keyframes[i] stutter.keyframes[i + 1] 1.5) ∧
      ((stutter.positionAt 1.5 0).map (·.x) == some 4.5) = true ∧
      (stutter.positionAt 0.5 9).isNone = true := by
  have many : 2 ≤ stutter.keyframes.size := by decide
  exact ⟨many, positionAt_searches many 1.5 0, by decide +kernel, by decide +kernel⟩

end ProceduralScene.Motion
