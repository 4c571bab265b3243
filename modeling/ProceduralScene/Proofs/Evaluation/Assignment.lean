import ProceduralScene.Proofs.Evaluation.Composition

/-! What evaluating a node does to the value that it is evaluated on. Nested expressions work on
copies, so whatever they set is lost; all that is left is the one variable that the node itself
sets. -/
namespace ProceduralScene

variable {α β : Type}

namespace Evaluation

def Private (x : Evaluation α β) : Prop := ∀ s, (on x s).2.value = s.value

theorem compositional_private : Compositional fun {β} (x : Evaluation α β) => Private x where
  pure _ _ := rfl
  fail _ _ := rfl
  value _ := rfl
  record _ _ _ := rfl
  bind := by
    intro β γ x f first next s
    have kept := first s
    rw [on_bind]
    rcases ran : on x s with ⟨fault | b, after⟩ <;> rw [ran] at kept
    · exact kept
    · exact (next b after).trans kept

theorem private_scratch (x : Evaluation α Unit) : Private (scratch x) := fun _ => rfl

end Evaluation

namespace Evaluator

open Evaluation

variable (ev : Evaluator α)

theorem private_invoke (node : Transformation) (name : String) (parameters : List Payload) :
    Private (ev.invoke node name parameters) := by
  intro s
  rw [on_invoke]
  cases ev.operations.get? name <;> rfl

/-- The value after a node that answers: that before it, but for the variable that the node sets to
the payload of its expression. A node that sets a variable does nothing else. -/
theorem value_step {resolve : Transformation → Evaluation α Payload}
    (nested : ∀ child, Private (resolve child)) {node : Transformation} {s after : Scope α}
    {answer : Step}
    (answered : on (ev.step resolve node) s = (.ok answer, after)) :
    match node.assigned? with
    | none => after.value = s.value
    | some (name, expression) => ∃ payload, (on (resolve expression) s).1 = .ok payload ∧
        after.value = { s.value with vars := s.value.vars.insert name payload } ∧
        answer = .pass := by
  cases sets : node.assigned? with
  | none =>
    have kept := compositional_private.step (ev.private_invoke node) (fun child _ => nested child)
      (fun assigned => absurd sets assigned) s
    rw [answered] at kept
    exact kept
  | some assigned =>
    cases node with
    | setVariable astId name expression =>
      cases sets
      have kept := nested expression s
      rw [step, on_bind] at answered
      rcases resolved : on (resolve expression) s with ⟨fault | payload, mid⟩
      · rw [resolved] at answered
        cases answered
      · rw [resolved] at answered kept
        simp only [on_bind, on_value, on_setValue] at answered
        cases answered
        exact ⟨payload, by rw [resolved], by rw [← kept], rfl⟩
    | _ => cases sets

end Evaluator
end ProceduralScene
