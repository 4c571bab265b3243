import ProceduralScene.Proofs.Evaluation.Outcome

/-! What an evaluation can give and how it can fail, whatever it is run on. Nodes of a kind that is
closed under going below a node and under running the nodes of a step are never left, and the
errors are those of the operations, and besides them only errors that name a node. -/
namespace ProceduralScene

variable {α β γ : Type}

def EvalError.site? : EvalError → Option String
  | unknownNoun astId _ _ | unknownOperation astId _ | unknownVariable astId _
  | noCaseMatched astId _ | forkInSynchronousEvaluation astId | typeMismatch astId _
  | payloadMismatch astId _ _ _ | invalidParameter astId _ _ _ | invalidProgram astId _ =>
    some astId
  | unknownRootNoun _ _ | unknownEntityType _ | alreadyRunning | notStarted | staleResumption
  | halted => none

namespace Transformation

def identifier? : Transformation → Option String
  | operation _ name _ | precomputed _ name _ => some name
  | _ => none

theorem mem_nodesOf_iff {inner : Transformation} {children : List Transformation} :
    inner ∈ nodesOf children ↔ ∃ child ∈ children, inner ∈ child.nodes := by
  induction children with
  | nil => simp [nodesOf]
  | cons first rest ih => simp [nodesOf, ih]

theorem mem_nodes_iff {node inner : Transformation} :
    inner ∈ node.nodes ↔ inner = node ∨ ∃ child ∈ node.children, inner ∈ child.nodes := by
  cases node <;> simp [nodes, children, mem_nodesOf_iff]

theorem mem_nodes (node : Transformation) : node ∈ node.nodes := mem_nodes_iff.mpr (.inl rfl)

theorem mem_nodes_of_child {node child inner : Transformation} (member : child ∈ node.children)
    (below : inner ∈ child.nodes) : inner ∈ node.nodes :=
  mem_nodes_iff.mpr (.inr ⟨child, member, below⟩)

end Transformation

def Step.nodes : Step → List Transformation
  | proceed _ push | fork _ push => push
  | parallel children => children

def Step.Rests (step : Step) : Prop := step.nodes = []

/-- An answer is a `P`, an error an `E`. -/
def Fulfils (P : β → Prop) (E : EvalError → Prop) : Except EvalError β → Prop
  | .ok b => P b
  | .error error => E error

theorem Fulfils.bind {P : β → Prop} {Q : γ → Prop} {E : EvalError → Prop}
    {x : Except EvalError β} {f : β → Except EvalError γ} (first : Fulfils P E x)
    (next : ∀ b, P b → Fulfils Q E (f b)) : Fulfils Q E (x >>= f) := by
  cases x with
  | ok b => exact next b first
  | error error => exact first

theorem Fulfils.imp {P Q : β → Prop} {E F : EvalError → Prop} {x : Except EvalError β}
    (fulfils : Fulfils P E x) (answers : ∀ b, P b → Q b) (errors : ∀ error, E error → F error) :
    Fulfils Q F x := by
  cases x with
  | ok b => exact answers b fulfils
  | error error => exact errors error fulfils

namespace Evaluation

variable {P : β → Prop} {Q : γ → Prop} {E : EvalError → Prop}

/-- Whatever it is run on, an evaluation gives a `P` or fails with an `E`, unless it is out of
fuel. -/
def Meets (P : β → Prop) (E : EvalError → Prop) (x : Evaluation α β) : Prop :=
  ∀ s, match (on x s).1 with
    | .ok b => P b
    | .error (.error error) => E error
    | .error .outOfFuel => True

theorem meets_trivial (x : Evaluation α β) : Meets (fun _ => True) (fun _ => True) x := by
  intro s
  rcases (on x s).1 with (error | _) | b <;> trivial

theorem meets_pure {b : β} (holds : P b) : Meets P E (pure b : Evaluation α β) := fun _ => holds

theorem meets_fail {error : EvalError} (holds : E error) :
    Meets P E (fail error : Evaluation α β) := fun _ => holds

theorem meets_bind {x : Evaluation α β} {f : β → Evaluation α γ} (first : Meets P E x)
    (next : ∀ b, P b → Meets Q E (f b)) : Meets Q E (x >>= f) := by
  intro s
  have met := first s
  rw [on_bind]
  rcases ran : on x s with ⟨(error | _) | b, after⟩ <;> rw [ran] at met
  · exact met
  · trivial
  · exact next b met after

theorem meets_orFail {error : EvalError} {b : Option β} (holds : E error) :
    Meets (fun found => b = some found) E (orFail error b : Evaluation α β) := by
  cases b with
  | none => exact meets_fail holds
  | some b => exact meets_pure rfl

theorem meets_lift {outcome : Except EvalError β} (fulfils : Fulfils P E outcome) :
    Meets P E (lift outcome : Evaluation α β) := by
  cases outcome with
  | ok b => exact meets_pure fulfils
  | error error => exact meets_fail fulfils

theorem meets_value : Meets (fun _ => True) E (value : Evaluation α Value) := fun _ => trivial

theorem meets_setValue (v : Value) : Meets (fun _ => True) E (setValue v : Evaluation α Unit) :=
  fun _ => trivial

theorem meets_record (event : Event) : Meets (fun _ => True) E (record event : Evaluation α Unit) :=
  fun _ => trivial

theorem meets_scratch {x : Evaluation α Unit} (met : Meets (fun _ => True) E x) :
    Meets (fun _ => True) E (scratch x) := by
  intro s
  have holds := met s
  rw [on_scratch]
  rcases ran : on x s with ⟨(error | _) | b, after⟩ <;> rw [ran] at holds
  · exact holds
  · trivial
  · trivial

theorem meets_mapM {f : β → Evaluation α γ} {items : List β}
    (each : ∀ b ∈ items, Meets (fun _ => True) E (f b)) :
    Meets (fun _ => True) E (items.mapM f) := by
  induction items with
  | nil => exact meets_pure trivial
  | cons item rest ih =>
    simp only [List.mapM_cons]
    refine meets_bind (each item List.mem_cons_self) fun b _ => ?_
    refine meets_bind (ih fun b member => each b (List.mem_cons_of_mem _ member)) fun bs _ => ?_
    exact meets_pure trivial

theorem meets_forM {f : β → Evaluation α PUnit} {items : List β}
    (each : ∀ b ∈ items, Meets (fun _ => True) E (f b)) :
    Meets (fun _ => True) E (items.forM f) := by
  induction items with
  | nil => exact meets_pure trivial
  | cons item rest ih =>
    refine meets_bind (each item List.mem_cons_self) fun _ _ => ?_
    exact ih fun b member => each b (List.mem_cons_of_mem _ member)

end Evaluation

theorem UnaryOperator.fulfils_apply (astId : String) (operator : UnaryOperator)
    (operand : Payload) :
    Fulfils (fun _ => True) (fun error => error.site? = some astId)
      (operator.apply astId operand) := by
  unfold apply
  split
  · trivial
  · trivial
  · rfl

theorem BinaryOperator.fulfils_apply (astId : String) (operator : BinaryOperator)
    (left right : Payload) :
    Fulfils (fun _ => True) (fun error => error.site? = some astId)
      (operator.apply astId left right) := by
  unfold apply
  split
  · trivial
  · trivial
  · trivial
  · trivial
  · split
    · trivial
    · rfl

namespace Evaluator

open Evaluation

/-- The nodes that a node goes on with, besides those that an operation pushes, are among these. -/
def parts (ev : Evaluator α) : Transformation → List Transformation
  | .reference _ description noun =>
    ((ev.program.noun? description noun).map (·.transformation)).toList
  | node => node.children

theorem mem_parts_of_child {ev : Evaluator α} {node child : Transformation}
    (member : child ∈ node.children) : child ∈ ev.parts node := by
  cases node with
  | reference _ _ _ => cases member
  | _ => exact member

section
variable {ev : Evaluator α} {Q : Step → Prop} {E : EvalError → Prop}
  {node : Transformation} (located : ∀ error, error.site?.isSome = true → E error)
  (calls : ∀ name operation, node.identifier? = some name →
    ev.operations.get? name = some operation → ∀ parameters scope,
      Fulfils Q E (operation.execute (ev.call node name operation parameters scope)).1)

include located calls

theorem meets_invoke {name : String} (named : node.identifier? = some name)
    (parameters : List Payload) : Meets Q E (ev.invoke node name parameters) := by
  intro scope
  rw [on_invoke]
  cases found : ev.operations.get? name with
  | none => exact located _ rfl
  | some operation =>
    have fulfils := calls name operation named found parameters scope
    dsimp only
    cases answered : (operation.execute (ev.call node name operation parameters scope)).1 with
    | error error =>
      rw [answered] at fulfils
      exact fulfils
    | ok step =>
      rw [answered] at fulfils
      exact fulfils

theorem meets_step (parts : ∀ step : Step, (∀ next ∈ step.nodes, next ∈ ev.parts node) → Q step)
    {resolve : Transformation → Evaluation α Payload}
    (nested : ∀ child ∈ node.children, Meets (fun _ => True) E (resolve child)) :
    Meets Q E (ev.step resolve node) := by
  have below (step : Step) (among : ∀ next ∈ step.nodes, next ∈ node.children) : Q step :=
    parts step fun next member => mem_parts_of_child (among next member)
  have one (child : Transformation) (member : child ∈ node.children) : Q (.andThen [child]) := by
    refine below _ fun next inside => ?_
    rw [List.mem_singleton.mp inside]
    exact member
  have none (payload : Option Payload) : Q (.proceed payload []) := by
    refine below _ fun next inside => ?_
    cases inside
  have site {astId : String} (error : EvalError) (at_ : error.site? = some astId) : E error :=
    located error (by rw [at_]; rfl)
  cases node with
  | sequential _ children => exact meets_pure (below _ fun _ => id)
  | parallel _ children => exact meets_pure (below _ fun _ => id)
  | literal _ payload => exact meets_pure (none _)
  | this _ => exact meets_pure (none _)
  | operation _ name children =>
    exact meets_bind (meets_mapM nested) fun parameters _ =>
      meets_invoke located calls rfl parameters
  | precomputed _ name parameters => exact meets_invoke located calls rfl parameters
  | reference _ description noun =>
    refine meets_bind (meets_orFail (located _ rfl)) fun found known => meets_pure ?_
    refine parts _ fun next inside => ?_
    rw [List.mem_singleton.mp inside, Evaluator.parts, known]
    exact List.mem_singleton_self _
  | unary astId operator child =>
    refine meets_bind (nested child (by simp [Transformation.children])) fun operand _ => ?_
    refine meets_bind (meets_lift ((operator.fulfils_apply astId operand).imp (fun _ _ => trivial)
      site)) fun payload _ => meets_pure (none _)
  | binary astId operator left right =>
    refine meets_bind (nested left (by simp [Transformation.children])) fun a _ => ?_
    refine meets_bind (nested right (by simp [Transformation.children])) fun b _ => ?_
    exact meets_bind (meets_lift ((operator.fulfils_apply astId a b).imp (fun _ _ => trivial)
      site)) fun payload _ => meets_pure (none _)
  | ifElse _ condition whenTrue whenFalse =>
    refine meets_bind (nested condition (by simp [Transformation.children])) fun chosen _ => ?_
    refine meets_pure (one _ ?_)
    cases chosen.isTruthy <;> simp [Transformation.children]
  | switch _ cases children =>
    refine meets_bind (meets_orFail (located _ rfl)) fun selector first => ?_
    refine meets_bind (nested selector (List.mem_of_head? first)) fun selected _ => ?_
    refine meets_bind (meets_orFail (located _ rfl)) fun index _ => ?_
    refine meets_bind (meets_orFail (located _ rfl)) fun branch found => ?_
    exact meets_pure (one _ (List.mem_of_getElem? found))
  | stochasticSwitch _ probabilities children =>
    refine meets_bind (meets_orFail (located _ rfl)) fun index _ => ?_
    refine meets_bind (meets_orFail (located _ rfl)) fun branch found => ?_
    refine meets_bind meets_value fun v _ => ?_
    refine meets_bind (meets_record _) fun _ _ => ?_
    exact meets_pure (one _ (List.mem_of_getElem? found))
  | getVariable _ name =>
    refine meets_bind meets_value fun v _ => ?_
    exact meets_bind (meets_orFail (located _ rfl)) fun payload _ => meets_pure (none _)
  | setVariable _ name expression =>
    refine meets_bind (nested expression (by simp [Transformation.children])) fun payload _ => ?_
    refine meets_bind meets_value fun v _ => ?_
    exact meets_bind (meets_setValue _) fun _ _ => meets_pure (none _)

end

/-- A kind of nodes that evaluation does not leave, and a kind of errors that it keeps to. -/
structure Confined (ev : Evaluator α) (K : Transformation → Prop) (E : EvalError → Prop) :
    Prop where
  below : ∀ node, K node → ∀ child ∈ node.children, K child
  nouns : ∀ description noun found, ev.program.noun? description noun = some found →
    K found.transformation
  located : ∀ error, error.site?.isSome = true → E error
  calls : ∀ node name operation, K node → node.identifier? = some name →
    ev.operations.get? name = some operation → ∀ parameters scope,
      Fulfils (fun step => ∀ next ∈ step.nodes, K next) E
        (operation.execute (ev.call node name operation parameters scope)).1

variable {ev : Evaluator α} {K : Transformation → Prop} {E : EvalError → Prop}
  (confined : ev.Confined K E)

include confined

theorem Confined.meets_step {node : Transformation} (kind : K node)
    {resolve : Transformation → Evaluation α Payload}
    (nested : ∀ child ∈ node.children, Meets (fun _ => True) E (resolve child)) :
    Meets (fun step => ∀ next ∈ step.nodes, K next) E (ev.step resolve node) := by
  have calls (name : String) (operation : Operation α) (named : node.identifier? = some name)
      (found : ev.operations.get? name = some operation) :=
    confined.calls node name operation kind named found
  refine Evaluator.meets_step confined.located calls (fun step among next inside => ?_) nested
  have member := among next inside
  cases node with
  | reference _ description noun =>
    obtain ⟨found, known, rfl⟩ := Option.map_eq_some_iff.mp (Option.mem_toList.mp member)
    exact confined.nouns description noun found known
  | _ => exact confined.below _ kind next member

/-- The main statement: an evaluation keeps to its kind of nodes, and so to its errors. -/
theorem meets_evaluate (fuel : Nat) {node : Transformation} (kind : K node) :
    Meets (fun _ => True) E (ev.evaluate fuel node) := by
  induction fuel generalizing node with
  | zero => exact fun _ => trivial
  | succ fuel ih =>
    rw [evaluate]
    refine meets_bind (confined.meets_step kind fun child member =>
      meets_scratch (ih (confined.below node kind child member))) fun step next => ?_
    cases step with
    | proceed payload push =>
      refine meets_bind meets_value fun v _ => ?_
      exact meets_bind (meets_setValue _) fun _ _ =>
        meets_forM fun pushed member => ih (next pushed member)
    | fork payloads push => exact meets_fail (confined.located _ rfl)
    | parallel children => exact meets_fail (confined.located _ rfl)

theorem meets_resolve (fuel : Nat) {node : Transformation} (kind : K node) :
    Meets (fun _ => True) E (ev.resolve fuel node) :=
  meets_scratch (meets_evaluate confined fuel kind)

end Evaluator
end ProceduralScene
