import ProceduralScene.Proofs.Evaluation.Composition
import ProceduralScene.Proofs.Evaluation.Related

/-! Evaluations that come to the same on related queues. With the same fuel on both sides nothing is
left open: the outcomes are equal also where the fuel gives out, and whatever one evaluation records
the other records, too. -/
namespace ProceduralScene

variable {α β γ : Type}

structure Scope.Abreast (R : Queue α → Queue α → Prop) (s t : Scope α) : Prop
    extends s.Related R t where
  trace : s.trace = t.trace

namespace Evaluation

variable {R : Queue α → Queue α → Prop}

def Indifferent (R : Queue α → Queue α → Prop) (x : Evaluation α β) : Prop :=
  ∀ s t, s.Abreast R t → (on x s).1 = (on x t).1 ∧ (on x s).2.Abreast R (on x t).2

theorem compositional_indifferent :
    Compositional fun {β} (x : Evaluation α β) => Indifferent R x where
  pure _ _ _ abreast := ⟨rfl, abreast⟩
  fail _ _ _ abreast := ⟨rfl, abreast⟩
  value s t abreast := ⟨congrArg Except.ok abreast.value, abreast⟩
  record event _ s t abreast := by
    have recorded : s.trace.map (·.push event) = t.trace.map (·.push event) := by
      rw [abreast.trace]
    exact ⟨rfl, ⟨abreast.queue, abreast.value⟩, recorded⟩
  bind := by
    intro β γ x f first next s t abreast
    have alike := first s t abreast
    rw [on_bind, on_bind]
    rcases ran : on x s with ⟨outcome, s'⟩
    rcases ran' : on x t with ⟨outcome', t'⟩
    rw [ran, ran'] at alike
    obtain ⟨same, after⟩ := alike
    dsimp only at same after
    subst same
    cases outcome with
    | error fault => exact ⟨rfl, after⟩
    | ok b => exact next b s' t' after

theorem indifferent_outOfFuel : Indifferent R (throw .outOfFuel : Evaluation α β) :=
  fun _ _ abreast => ⟨rfl, abreast⟩

theorem indifferent_setValue (v : Value) : Indifferent R (setValue v : Evaluation α Unit) :=
  fun _ _ abreast => ⟨rfl, ⟨abreast.queue, rfl⟩, abreast.trace⟩

theorem indifferent_scratch {x : Evaluation α Unit} (h : Indifferent R x) :
    Indifferent R (scratch x) := by
  intro s t abreast
  obtain ⟨same, after⟩ := h s t abreast
  rw [on_scratch, on_scratch, same, after.value]
  exact ⟨rfl, ⟨after.queue, abreast.value⟩, after.trace⟩

end Evaluation

namespace Evaluator

open Evaluation

variable {R : Queue α → Queue α → Prop} {ev : Evaluator α} (respects : ev.operations.Respects R)

include respects

theorem indifferent_invoke (node : Transformation) (name : String) (parameters : List Payload) :
    Indifferent R (ev.invoke node name parameters) := by
  intro s t abreast
  rw [on_invoke, on_invoke]
  cases found : ev.operations.get? name with
  | none => exact ⟨rfl, abreast⟩
  | some operation =>
    have alike := respects name operation found (ev.call node name operation parameters s) s.queue
      t.queue abreast.queue
    have same : operation.answer (ev.call node name operation parameters s) t.queue =
        operation.execute (ev.call node name operation parameters t) := by
      simp only [Operation.answer, call, abreast.value]
    rw [same] at alike
    exact ⟨congrArg (Except.mapError Fault.error) alike.1, ⟨alike.2, abreast.value⟩, abreast.trace⟩

theorem indifferent_evaluate (fuel : Nat) (node : Transformation) :
    Indifferent R (ev.evaluate fuel node) :=
  compositional_indifferent.evaluate indifferent_outOfFuel indifferent_scratch indifferent_setValue
    (indifferent_invoke respects) fuel node

theorem indifferent_resolve (fuel : Nat) (node : Transformation) :
    Indifferent R (ev.resolve fuel node) :=
  indifferent_scratch (indifferent_evaluate respects fuel node)

theorem indifferent_step (fuel : Nat) (node : Transformation) :
    Indifferent R (ev.step (ev.resolve fuel) node) :=
  compositional_indifferent.step (indifferent_invoke respects node)
    (fun child _ => indifferent_resolve respects fuel child) fun _ => indifferent_setValue

end Evaluator
end ProceduralScene
