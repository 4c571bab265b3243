import ProceduralScene.Proofs.Evaluation.Branching

/-! Properties that an evaluation has if its blocks have them. Such a property comes up from the
nested expressions of a node and from the call of its operation to the step of the node, whatever
the node is. A node that sets a variable is the only one that writes to the value itself. -/
namespace ProceduralScene

variable {α : Type}

/-- The variable that a node sets, and the expression for it. -/
def Transformation.assigned? : Transformation → Option (String × Transformation)
  | setVariable _ name expression => some (name, expression)
  | _ => none

def Event.Chosen : Event → Prop
  | .chose (.stochasticSwitch _ probabilities children) _ branch =>
    branch < probabilities.length ∧ branch < children.length
  | _ => False

namespace Evaluation

/-- The smallest evaluations have the property, and so does one that goes on with another. -/
structure Compositional (C : ∀ {β : Type}, Evaluation α β → Prop) : Prop where
  pure : ∀ {β : Type} (b : β), C (pure b)
  fail : ∀ {β : Type} (error : EvalError), C (fail error : Evaluation α β)
  value : C value
  record : ∀ event : Event, event.Chosen → C (record event)
  bind : ∀ {β γ : Type} {x : Evaluation α β} {f : β → Evaluation α γ},
    C x → (∀ b, C (f b)) → C (x >>= f)

namespace Compositional

variable {C : ∀ {β : Type}, Evaluation α β → Prop} (compositional : Compositional C)
  {β γ : Type}

include compositional

theorem lift (outcome : Except EvalError β) : C (Evaluation.lift outcome) := by
  cases outcome with
  | ok b => exact compositional.pure b
  | error error => exact compositional.fail error

theorem orFail (error : EvalError) {b : Option β} {f : β → Evaluation α γ}
    (next : ∀ found, b = some found → C (f found)) : C (Evaluation.orFail error b >>= f) := by
  cases b with
  | none => exact compositional.fail error
  | some b => exact next b rfl

theorem mapM {f : β → Evaluation α γ} {items : List β} (each : ∀ b ∈ items, C (f b)) :
    C (items.mapM f) := by
  induction items with
  | nil => exact compositional.pure []
  | cons item rest ih =>
    rw [List.mapM_cons]
    refine compositional.bind (each item List.mem_cons_self) fun b => ?_
    refine compositional.bind (ih fun b member => each b (List.mem_cons_of_mem _ member)) ?_
    exact fun bs => compositional.pure (b :: bs)

theorem forM {f : β → Evaluation α PUnit} {items : List β} (each : ∀ b ∈ items, C (f b)) :
    C (items.forM f) := by
  induction items with
  | nil => exact compositional.pure PUnit.unit
  | cons item rest ih =>
    refine compositional.bind (each item List.mem_cons_self) fun _ => ?_
    exact ih fun b member => each b (List.mem_cons_of_mem _ member)

theorem step {ev : Evaluator α} {node : Transformation}
    {resolve : Transformation → Evaluation α Payload}
    (invoked : ∀ name parameters, C (ev.invoke node name parameters))
    (nested : ∀ child ∈ node.children, C (resolve child))
    (sets : node.assigned? ≠ none → ∀ v, C (setValue v)) : C (ev.step resolve node) := by
  cases node with
  | sequential _ children => exact compositional.pure _
  | parallel _ children => exact compositional.pure _
  | literal _ payload => exact compositional.pure _
  | this _ => exact compositional.pure _
  | operation _ name children =>
    exact compositional.bind (compositional.mapM nested) (invoked name)
  | precomputed _ name parameters => exact invoked name parameters
  | reference _ description noun =>
    exact compositional.orFail _ fun found _ => compositional.pure _
  | unary _ operator operand =>
    refine compositional.bind (nested operand (by simp [Transformation.children])) fun a => ?_
    exact compositional.bind (compositional.lift _) fun payload => compositional.pure _
  | binary _ operator left right =>
    refine compositional.bind (nested left (by simp [Transformation.children])) fun a => ?_
    refine compositional.bind (nested right (by simp [Transformation.children])) fun b => ?_
    exact compositional.bind (compositional.lift _) fun payload => compositional.pure _
  | ifElse _ condition whenTrue whenFalse =>
    exact compositional.bind (nested condition (by simp [Transformation.children])) fun chosen =>
      compositional.pure _
  | switch _ cases children =>
    refine compositional.orFail _ fun selector first => ?_
    refine compositional.bind (nested selector (List.mem_of_head? first)) fun selected => ?_
    refine compositional.orFail _ fun index _ => ?_
    exact compositional.orFail _ fun branch _ => compositional.pure _
  | stochasticSwitch _ probabilities children =>
    refine compositional.orFail _ fun index selected => ?_
    refine compositional.orFail _ fun branch found => ?_
    refine compositional.bind compositional.value fun v => ?_
    refine compositional.bind (compositional.record _ ?_) fun _ => compositional.pure _
    exact ⟨selectBranch_lt selected, (List.getElem?_eq_some_iff.mp found).1⟩
  | getVariable _ name =>
    refine compositional.bind compositional.value fun v => ?_
    exact compositional.orFail _ fun payload _ => compositional.pure _
  | setVariable _ name expression =>
    refine compositional.bind (nested expression (by simp [Transformation.children])) ?_
    intro payload
    refine compositional.bind compositional.value fun v => ?_
    exact compositional.bind (sets (Option.some_ne_none _) _) fun _ => compositional.pure _

/-- The recursion keeps the property if its own blocks do: giving out, working on a copy, setting
the value and calling an operation. -/
theorem evaluate {ev : Evaluator α} (exhausted : C (throw .outOfFuel : Evaluation α Unit))
    (scratch : ∀ {x : Evaluation α Unit}, C x → C (Evaluation.scratch x))
    (sets : ∀ v, C (setValue v))
    (invoked : ∀ node name parameters, C (ev.invoke node name parameters))
    (fuel : Nat) (node : Transformation) : C (ev.evaluate fuel node) := by
  induction fuel generalizing node with
  | zero => exact exhausted
  | succ fuel ih =>
    rw [Evaluator.evaluate]
    refine compositional.bind ?_ fun step => ?_
    · exact compositional.step (invoked node) (fun child _ => scratch (ih child)) fun _ => sets
    · cases step with
      | proceed payload push =>
        refine compositional.bind compositional.value fun v => ?_
        exact compositional.bind (sets _) fun _ => compositional.forM fun pushed _ => ih pushed
      | fork payloads push => exact compositional.fail _
      | parallel children => exact compositional.fail _

end Compositional

end Evaluation
end ProceduralScene
