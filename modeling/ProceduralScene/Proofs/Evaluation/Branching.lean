import ProceduralScene.Proofs.Binary64.RunningSum
import ProceduralScene.Proofs.Evaluation.Outcome

/-! Which branch a stochastic switch takes. The weights are scanned from the left for the draw of
the entry, and whatever weights they are, the scan ends at one of them; so a switch is in want of a
branch only where there are no weights, or no child for the weight. -/
namespace ProceduralScene

open Binary64

variable {weights : List Float} {draw : Float} {i : Nat}

theorem selectBranch.scan_lands (draw : Float) (weighted : weights ≠ []) (start : Nat)
    (sum : Float) :
    ∃ i, scan draw weights start sum = some (start + i) ∧ Lands sum draw weights i := by
  induction weights generalizing start sum with
  | nil => exact absurd rfl weighted
  | cons weight rest ih =>
    cases rest with
    | nil => exact ⟨0, rfl, .single⟩
    | cons next rest =>
      unfold scan
      split
      next reached => exact ⟨0, rfl, .here reached⟩
      next missed =>
        obtain ⟨i, found, lands⟩ := ih (List.cons_ne_nil _ _) (start + 1) (sum + weight)
        refine ⟨i + 1, ?_, .later missed lands⟩
        rw [found, Nat.add_assoc, Nat.add_comm 1 i]

theorem selectBranch_lands (draw : Float) (weighted : weights ≠ []) :
    ∃ i, selectBranch weights draw = some i ∧ Lands 0 draw weights i := by
  obtain ⟨i, found, lands⟩ := selectBranch.scan_lands draw weighted 0 0
  rw [Nat.zero_add] at found
  exact ⟨i, found, lands⟩

theorem selectBranch_eq_none_iff : selectBranch weights draw = none ↔ weights = [] := by
  constructor
  · intro none
    cases weights with
    | nil => rfl
    | cons weight rest =>
      obtain ⟨i, found, -⟩ := selectBranch_lands draw (List.cons_ne_nil weight rest)
      rw [found] at none
      cases none
  · rintro rfl
    rfl

theorem selectBranch_eq_some_iff : selectBranch weights draw = some i ↔ Lands 0 draw weights i := by
  constructor
  · intro selected
    have weighted : weights ≠ [] := by
      intro empty
      rw [selectBranch_eq_none_iff.mpr empty] at selected
      cases selected
    obtain ⟨j, found, lands⟩ := selectBranch_lands draw weighted
    cases selected.symm.trans found
    exact lands
  · intro lands
    have weighted : weights ≠ [] := List.ne_nil_of_length_pos (Nat.zero_lt_of_lt lands.lt)
    obtain ⟨j, found, lands'⟩ := selectBranch_lands draw weighted
    rw [found, lands.unique lands']

theorem selectBranch_lt (selected : selectBranch weights draw = some i) : i < weights.length :=
  (selectBranch_eq_some_iff.mp selected).lt

/-! The first sum reaches the draw although the later ones fall below it again; a shortfall goes to
the last weight, also if a weight is no number. -/

example : selectBranch [0.75, -0.5, 0.25] 0.5 = some 0 := by decide +kernel

example : selectBranch [0.75, 0 / 0, 1 / 0, -1] 0.9 = some 3 := by decide +kernel

variable {α : Type}

namespace Evaluator

open Evaluation

variable (ev : Evaluator α) (resolve : Transformation → Evaluation α Payload) (astId : String)
  (weights : List Float) (children : List Transformation) (scope : Scope α)

theorem on_stochasticSwitch :
    on (ev.step resolve (.stochasticSwitch astId weights children)) scope =
      match selectBranch weights (Draw.draw ev.identity) with
      | none => (.error (.error (.invalidProgram astId
          "stochastic switch without probabilities")), scope)
      | some i =>
        match children[i]? with
        | none => (.error (.error (missingBranch (.stochasticSwitch astId weights children) i)),
            scope)
        | some branch => (.ok (.andThen [branch]), { scope with
            toWorld := scope.toWorld.record
              (.chose (.stochasticSwitch astId weights children) scope.value i) }) := by
  rw [step, on_bind, on_orFail]
  cases selectBranch weights (Draw.draw ev.identity) with
  | none => rfl
  | some i =>
    simp only [on_bind, on_orFail]
    cases children[i]? <;> rfl

inductive Refuses : Fault → Prop
  | unweighted (empty : weights = []) : Refuses
      (.error (.invalidProgram astId "stochastic switch without probabilities"))
  | missing {i : Nat} (lands : Lands 0 (Draw.draw ev.identity) weights i)
      (few : children.length ≤ i) : Refuses
      (.error (.invalidProgram astId ("stochasticSwitch has no branch " ++ toString i)))

theorem stochasticSwitch_error_iff (fault : Fault) :
    (on (ev.step resolve (.stochasticSwitch astId weights children)) scope).1 = .error fault ↔
      ev.Refuses astId weights children fault := by
  rw [on_stochasticSwitch]
  cases selected : selectBranch weights (Draw.draw ev.identity) with
  | none =>
    have empty := selectBranch_eq_none_iff.mp selected
    constructor
    · intro failed
      cases failed
      exact .unweighted empty
    · intro refuses
      cases refuses with
      | unweighted _ => rfl
      | missing lands _ =>
        rw [selectBranch_eq_some_iff.mpr lands] at selected
        cases selected
  | some i =>
    have lands := selectBranch_eq_some_iff.mp selected
    constructor
    · intro failed
      cases found : children[i]? with
      | none =>
        simp only [found] at failed
        cases failed
        exact .missing lands (List.getElem?_eq_none_iff.mp found)
      | some branch =>
        simp only [found] at failed
        cases failed
    · intro refuses
      cases refuses with
      | unweighted empty =>
        rw [selectBranch_eq_none_iff.mpr empty] at selected
        cases selected
      | missing lands' few =>
        cases lands.unique lands'
        simp only [List.getElem?_eq_none few]
        rfl

/-- The branch that a stochastic switch takes at a draw, and what becomes of the switch. -/
structure Branches : Prop where
  empty : ∀ draw, selectBranch weights draw = none ↔ weights = []
  lands : ∀ draw i, selectBranch weights draw = some i ↔ Lands 0 draw weights i
  inside : ∀ draw i, selectBranch weights draw = some i → i < weights.length
  refuses : ∀ resolve scope fault,
    (on (ev.step resolve (.stochasticSwitch astId weights children)) scope).1 = .error fault ↔
      ev.Refuses astId weights children fault
  takes : ∀ resolve scope i branch, Lands 0 (Draw.draw ev.identity) weights i →
    children[i]? = some branch →
      on (ev.step resolve (.stochasticSwitch astId weights children)) scope =
        (.ok (.andThen [branch]), { scope with
          toWorld := scope.toWorld.record
            (.chose (.stochasticSwitch astId weights children) scope.value i) })

theorem stochasticSwitch_branches : ev.Branches astId weights children where
  empty _ := selectBranch_eq_none_iff
  lands _ _ := selectBranch_eq_some_iff
  inside _ _ := selectBranch_lt
  refuses resolve scope := ev.stochasticSwitch_error_iff resolve astId weights children scope
  takes resolve scope i branch lands found := by
    rw [on_stochasticSwitch, selectBranch_eq_some_iff.mpr lands]
    simp only [found]

end Evaluator
end ProceduralScene
