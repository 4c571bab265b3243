import ProceduralScene.Evaluation.Evaluator

/-! What an evaluation gives on a scope: an outcome and the scope as it leaves it. The blocks that
an evaluation is built of have their equations here, so that later proofs follow the blocks and
never look into the transformers underneath. -/
namespace ProceduralScene

namespace Evaluation

variable {α β γ : Type}

def on (x : Evaluation α β) (scope : Scope α) : Except Fault β × Scope α := x.run.run scope

theorem on_bind (x : Evaluation α β) (f : β → Evaluation α γ) (scope : Scope α) :
    on (x >>= f) scope =
      match on x scope with
      | (.ok b, after) => on (f b) after
      | (.error fault, after) => (.error fault, after) := by
  simp only [on, ExceptT.run_bind, StateT.run_bind]
  rcases x.run.run scope with ⟨outcome, after⟩
  cases outcome <;> rfl

theorem on_lift (outcome : Except EvalError β) (scope : Scope α) :
    on (lift outcome) scope = (outcome.mapError Fault.error, scope) := by
  cases outcome <;> rfl

theorem on_orFail (error : EvalError) (b : Option β) (scope : Scope α) :
    on (orFail error b) scope =
      match b with
      | some b => (.ok b, scope)
      | none => (.error (.error error), scope) := by
  cases b <;> rfl

@[simp] theorem on_get (scope : Scope α) :
    on (get : Evaluation α (Scope α)) scope = (.ok scope, scope) := rfl

@[simp] theorem on_value (scope : Scope α) : on value scope = (.ok scope.value, scope) := rfl

@[simp] theorem on_setValue (v : Value) (scope : Scope α) :
    on (setValue v) scope = (.ok (), { scope with value := v }) := rfl

theorem on_scratch (x : Evaluation α Unit) (scope : Scope α) :
    on (scratch x) scope =
      ((on x scope).1.map fun _ => (on x scope).2.value.payload,
        { (on x scope).2 with value := scope.value }) := rfl

theorem on_forM_cons {β : Type} (f : β → Evaluation α PUnit) (item : β) (items : List β)
    (scope : Scope α) :
    on ((item :: items).forM f) scope =
      match on (f item) scope with
      | (.ok _, after) => on (items.forM f) after
      | (.error fault, after) => (.error fault, after) := by
  rw [show (item :: items).forM f = f item >>= fun _ => items.forM f from rfl, on_bind]
  rcases on (f item) scope with ⟨_ | _, after⟩ <;> rfl

end Evaluation

namespace Evaluator

open Evaluation

variable {α : Type} (ev : Evaluator α)

theorem on_invoke (node : Transformation) (identifier : String) (parameters : List Payload)
    (scope : Scope α) :
    on (ev.invoke node identifier parameters) scope =
      match ev.operations.get? identifier with
      | none => (.error (.error (.unknownOperation node.astId identifier)), scope)
      | some operation =>
        let answer := operation.execute (ev.call node identifier operation parameters scope)
        (answer.1.mapError Fault.error, { scope with queue := answer.2.getD scope.queue }) := by
  simp only [invoke, on_bind, on_orFail]
  cases ev.operations.get? identifier with
  | none => rfl
  | some operation =>
    simp only [on_get]
    rw [← on_lift]
    rfl

theorem on_evaluate_succ (fuel : Nat) (node : Transformation) (scope : Scope α) :
    on (ev.evaluate (fuel + 1) node) scope =
      match on (ev.step (ev.resolve fuel) node) scope with
      | (.error fault, after) => (.error fault, after)
      | (.ok (.proceed payload push), after) =>
        on (push.forM (ev.evaluate fuel))
          { after with
            value := { after.value with payload := payload.getD after.value.payload } }
      | (.ok _, after) => (.error (.error (.forkInSynchronousEvaluation node.astId)), after) := by
  have nested : (fun child => scratch (ev.evaluate fuel child)) = ev.resolve fuel := rfl
  rw [evaluate, nested, on_bind]
  rcases on (ev.step (ev.resolve fuel) node) scope with ⟨fault | step, after⟩
  · rfl
  · cases step with
    | proceed payload push => simp only [on_bind, on_value, on_setValue]
    | fork payloads push => rfl
    | parallel children => rfl

end Evaluator
end ProceduralScene
