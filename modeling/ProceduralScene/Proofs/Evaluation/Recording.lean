import ProceduralScene.Proofs.Evaluation.Composition

/-! What an evaluation records. Only a stochastic switch records anything, and that is its choice,
once it has found a branch for it. So however deep it nests and wherever it fails, an evaluation
adds nothing to the trace but choices that the switches have. -/
namespace ProceduralScene

variable {α β : Type}

namespace World

def Extends (w next : World α) (events : List Event) : Prop :=
  next.trace = w.trace.map (· ++ events.toArray)

theorem Extends.refl (w : World α) : w.Extends w [] := by
  cases traced : w.trace <;> simp [Extends, traced]

theorem Extends.trans {w mid next : World α} {events more : List Event}
    (first : w.Extends mid events) (second : mid.Extends next more) :
    w.Extends next (events ++ more) := by
  unfold Extends at first second ⊢
  rw [second, first]
  cases w.trace <;> simp

theorem extends_record (w : World α) (event : Event) : w.Extends (w.record event) [event] := by
  cases traced : w.trace <;> simp [Extends, record, traced]

end World

namespace Evaluation

def RecordsChoices (x : Evaluation α β) : Prop :=
  ∀ s : Scope α, ∃ choices : List Event, (∀ event ∈ choices, event.Chosen) ∧
    s.toWorld.Extends (on x s).2.toWorld choices

theorem recordsChoices_of_same {x : Evaluation α β} (same : ∀ s, (on x s).2.trace = s.trace) :
    RecordsChoices x := by
  intro s
  refine ⟨[], nofun, ?_⟩
  have kept := World.Extends.refl s.toWorld
  exact (same s).trans kept

theorem compositional_recordsChoices :
    Compositional fun {β} (x : Evaluation α β) => RecordsChoices x where
  pure _ := recordsChoices_of_same fun _ => rfl
  fail _ := recordsChoices_of_same fun _ => rfl
  value := recordsChoices_of_same fun _ => rfl
  record event chosen s := by
    refine ⟨[event], fun other member => ?_, s.toWorld.extends_record event⟩
    rw [List.mem_singleton.mp member]
    exact chosen
  bind := by
    intro β γ x f first next s
    obtain ⟨choices, chosen, extended⟩ := first s
    rw [on_bind]
    rcases ran : on x s with ⟨fault | b, after⟩ <;> rw [ran] at extended
    · exact ⟨choices, chosen, extended⟩
    · obtain ⟨more, chosen', extended'⟩ := next b after
      refine ⟨choices ++ more, fun event member => ?_, extended.trans extended'⟩
      exact (List.mem_append.mp member).elim (chosen event) (chosen' event)

theorem RecordsChoices.scratch {x : Evaluation α Unit} (records : RecordsChoices x) :
    RecordsChoices (Evaluation.scratch x) := by
  intro s
  obtain ⟨choices, chosen, extended⟩ := records s
  exact ⟨choices, chosen, extended⟩

end Evaluation

namespace Evaluator

open Evaluation

variable (ev : Evaluator α)

theorem recordsChoices_invoke (node : Transformation) (name : String) (parameters : List Payload) :
    RecordsChoices (ev.invoke node name parameters) := by
  refine recordsChoices_of_same fun s => ?_
  rw [on_invoke]
  cases ev.operations.get? name <;> rfl

theorem recordsChoices_evaluate (depth : Nat) (node : Transformation) :
    RecordsChoices (ev.evaluate depth node) :=
  compositional_recordsChoices.evaluate (recordsChoices_of_same fun _ => rfl)
    RecordsChoices.scratch (fun _ => recordsChoices_of_same fun _ => rfl) ev.recordsChoices_invoke
    depth node

theorem recordsChoices_step (depth : Nat) (node : Transformation) :
    RecordsChoices (ev.step (ev.resolve depth) node) :=
  compositional_recordsChoices.step (ev.recordsChoices_invoke node)
    (fun child _ => (ev.recordsChoices_evaluate depth child).scratch)
    fun _ _ => recordsChoices_of_same fun _ => rfl

end Evaluator
end ProceduralScene
