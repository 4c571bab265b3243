/-! A scan adds numbers up from the left until the sum reaches a target. Nothing is asked of the
numbers: with negative ones the sum may fall below the target again, and from the first one that is
no number on it reaches nothing. -/
namespace ProceduralScene.Binary64

def runningSum (start : Float) (numbers : List Float) (i : Nat) : Float :=
  (numbers.take (i + 1)).foldl (· + ·) start

/-- The index at which a scan ends: the least one at which the sum reaches the target, and the last
one if it reaches it at none. -/
inductive Lands (start target : Float) (numbers : List Float) (i : Nat) : Prop
  | first (inside : i < numbers.length) (reached : target ≤ runningSum start numbers i)
      (passed : ∀ j < i, ¬target ≤ runningSum start numbers j)
  | last (ends : i + 1 = numbers.length)
      (short : ∀ j < numbers.length, ¬target ≤ runningSum start numbers j)

variable {start target x : Float} {numbers rest : List Float} {i j : Nat}

@[simp] theorem runningSum_zero : runningSum start (x :: rest) 0 = start + x := rfl

@[simp] theorem runningSum_succ :
    runningSum start (x :: rest) (i + 1) = runningSum (start + x) rest i := rfl

namespace Lands

theorem lt (lands : Lands start target numbers i) : i < numbers.length := by
  cases lands with
  | first inside _ _ => exact inside
  | last ends _ => omega

theorem unique (lands : Lands start target numbers i) (lands' : Lands start target numbers j) :
    i = j := by
  cases lands with
  | first inside reached passed =>
    cases lands' with
    | first inside' reached' passed' =>
      rcases Nat.lt_trichotomy i j with less | same | greater
      · exact absurd reached (passed' i less)
      · exact same
      · exact absurd reached' (passed j greater)
    | last _ short => exact absurd reached (short i inside)
  | last ends short =>
    cases lands' with
    | first inside reached _ => exact absurd reached (short j inside)
    | last ends' _ => omega

theorem here (reached : target ≤ start + x) : Lands start target (x :: rest) 0 := by
  refine .first (Nat.zero_lt_succ _) ?_ fun j less => absurd less (Nat.not_lt_zero j)
  rwa [runningSum_zero]

theorem single : Lands start target [x] 0 := by
  by_cases reached : target ≤ start + x
  · exact here reached
  · refine .last rfl fun j less => ?_
    obtain rfl : j = 0 := Nat.lt_one_iff.mp less
    rwa [runningSum_zero]

theorem later (missed : ¬target ≤ start + x) (lands : Lands (start + x) target rest i) :
    Lands start target (x :: rest) (i + 1) := by
  -- what the first number misses, and then all up to `k`, is missed before `k + 1`
  have onward {k : Nat} (short : ∀ j < k, ¬target ≤ runningSum (start + x) rest j) :
      ∀ j < k + 1, ¬target ≤ runningSum start (x :: rest) j := by
    intro j less
    cases j with
    | zero => rwa [runningSum_zero]
    | succ j =>
      rw [runningSum_succ]
      exact short j (Nat.lt_of_succ_lt_succ less)
  cases lands with
  | first inside reached passed =>
    refine .first (Nat.succ_lt_succ inside) ?_ (onward passed)
    rwa [runningSum_succ]
  | last ends short =>
    refine .last ?_ (onward short)
    rw [List.length_cons, ends]

end Lands
end ProceduralScene.Binary64
