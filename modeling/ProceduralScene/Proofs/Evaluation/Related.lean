import ProceduralScene.Proofs.Evaluation.Contract

/-! What an evaluation cannot tell apart. A relation on queues is respected by the evaluation of a
node if it is respected by the operations that the nodes of its kind name: on related queues the
evaluation gives the same outcome and leaves related queues. More fuel only matters to an evaluation
that ran out of it, so the same induction also lets the second evaluation have more. -/
namespace ProceduralScene

variable {α β γ : Type}

/-- Scopes with related queues and one value. The trace is never read. -/
structure Scope.Related (R : Queue α → Queue α → Prop) (s t : Scope α) : Prop where
  queue : R s.queue t.queue
  value : s.value = t.value

def Operation.answer (o : Operation α) (call : Call α) (queue : Queue α) :
    Except EvalError Step × Option (Queue α) :=
  o.execute { call with queue := if o.receivesQueue then some queue else none }

/-- An operation answers alike on related queues, and leaves related queues. -/
def Operation.Respects (R : Queue α → Queue α → Prop) (o : Operation α) : Prop :=
  ∀ (call : Call α) (q r : Queue α), R q r →
    (o.answer call q).1 = (o.answer call r).1 ∧
      R ((o.answer call q).2.getD q) ((o.answer call r).2.getD r)

def Registry.Respects (R : Queue α → Queue α → Prop) (operations : Registry α) : Prop :=
  ∀ name operation, operations.get? name = some operation → operation.Respects R

theorem Registry.respects_eq (operations : Registry α) : operations.Respects (· = ·) := by
  rintro name operation _ call q _ rfl
  exact ⟨rfl, rfl⟩

namespace Evaluation

variable {R : Queue α → Queue α → Prop}

def Agree (R : Queue α → Queue α → Prop) (a b : Except Fault β × Scope α) : Prop :=
  a.1 = .error .outOfFuel ∨ a.1 = b.1 ∧ a.2.Related R b.2

theorem Agree.of_ok {a b : Except Fault β × Scope α} (agree : Agree R a b) {value : β}
    {s : Scope α} (ok : a = (.ok value, s)) : ∃ t, b = (.ok value, t) ∧ s.Related R t := by
  subst ok
  obtain ⟨outcome, t⟩ := b
  rcases agree with exhausted | ⟨same, related⟩
  · cases exhausted
  · dsimp only at same
    subst same
    exact ⟨t, rfl, related⟩

/-- On related scopes the second evaluation answers like the first one, unless that runs out
of fuel. -/
def Approximates (R : Queue α → Queue α → Prop) (x y : Evaluation α β) : Prop :=
  ∀ s t, s.Related R t → Agree R (on x s) (on y t)

theorem approximates_pure (b : β) : Approximates R (pure b : Evaluation α β) (pure b) :=
  fun _ _ related => .inr ⟨rfl, related⟩

theorem approximates_fail (error : EvalError) :
    Approximates R (fail error : Evaluation α β) (fail error) :=
  fun _ _ related => .inr ⟨rfl, related⟩

theorem approximates_outOfFuel (y : Evaluation α β) :
    Approximates R (throw .outOfFuel) y :=
  fun _ _ _ => .inl rfl

theorem approximates_bind_of_meets {P : β → Prop} {E : EvalError → Prop}
    {x y : Evaluation α β} {f g : β → Evaluation α γ} (first : Approximates R x y)
    (met : Meets P E x) (next : ∀ b, P b → Approximates R (f b) (g b)) :
    Approximates R (x >>= f) (y >>= g) := by
  intro s t related
  have given := met s
  rw [on_bind, on_bind]
  rcases first s t related with exhausted | ⟨same, after⟩
  · rcases hx : on x s with ⟨outcome, s'⟩
    rw [hx] at exhausted
    subst exhausted
    exact .inl rfl
  · rcases hx : on x s with ⟨outcome, s'⟩
    rcases hy : on y t with ⟨outcome', t'⟩
    rw [hx, hy] at same after
    rw [hx] at given
    dsimp only at same after
    subst same
    cases outcome with
    | ok b => exact next b given s' t' after
    | error fault => exact .inr ⟨rfl, after⟩

theorem approximates_bind {x y : Evaluation α β} {f g : β → Evaluation α γ}
    (first : Approximates R x y) (next : ∀ b, Approximates R (f b) (g b)) :
    Approximates R (x >>= f) (y >>= g) :=
  approximates_bind_of_meets first (meets_trivial x) fun b _ => next b

theorem approximates_orFail (error : EvalError) (b : Option β) :
    Approximates R (orFail error b : Evaluation α β) (orFail error b) := by
  cases b with
  | some b => exact approximates_pure b
  | none => exact approximates_fail error

theorem approximates_lift (outcome : Except EvalError β) :
    Approximates R (lift outcome : Evaluation α β) (lift outcome) := by
  cases outcome with
  | ok b => exact approximates_pure b
  | error error => exact approximates_fail error

theorem approximates_value_bind {f g : Value → Evaluation α γ}
    (next : ∀ v, Approximates R (f v) (g v)) :
    Approximates R (value >>= f) (value >>= g) := by
  intro s t related
  simp only [on_bind, on_value, related.value]
  exact next t.value s t related

theorem approximates_setValue (v : Value) :
    Approximates R (setValue v : Evaluation α Unit) (setValue v) :=
  fun _ _ related => .inr ⟨rfl, related.queue, rfl⟩

theorem approximates_record (event : Event) :
    Approximates R (record event : Evaluation α Unit) (record event) :=
  fun _ _ related => .inr ⟨rfl, related.queue, related.value⟩

theorem approximates_scratch {x y : Evaluation α Unit} (h : Approximates R x y) :
    Approximates R (scratch x) (scratch y) := by
  intro s t related
  simp only [Agree, on_scratch]
  rcases h s t related with exhausted | ⟨same, after⟩
  · exact .inl (by rw [exhausted]; rfl)
  · exact .inr ⟨by rw [same, after.value], after.queue, related.value⟩

theorem approximates_mapM {f g : β → Evaluation α γ} {items : List β}
    (each : ∀ b ∈ items, Approximates R (f b) (g b)) :
    Approximates R (items.mapM f) (items.mapM g) := by
  induction items with
  | nil => exact approximates_pure []
  | cons item rest ih =>
    simp only [List.mapM_cons]
    refine approximates_bind (each item List.mem_cons_self) fun b => ?_
    exact approximates_bind (ih fun b member => each b (List.mem_cons_of_mem _ member)) fun bs =>
      approximates_pure _

theorem approximates_forM {f g : β → Evaluation α PUnit} {items : List β}
    (each : ∀ b ∈ items, Approximates R (f b) (g b)) :
    Approximates R (items.forM f) (items.forM g) := by
  induction items with
  | nil => exact approximates_pure _
  | cons item rest ih =>
    refine approximates_bind (each item List.mem_cons_self) fun _ => ?_
    exact ih fun b member => each b (List.mem_cons_of_mem _ member)

end Evaluation

namespace Evaluator

open Evaluation

variable {R : Queue α → Queue α → Prop} (ev : Evaluator α)

def Respects (K : Transformation → Prop) (R : Queue α → Queue α → Prop) : Prop :=
  ∀ node name operation, K node → node.identifier? = some name →
    ev.operations.get? name = some operation → operation.Respects R

variable {ev}

theorem respects_of_registry (respects : ev.operations.Respects R) (K : Transformation → Prop) :
    ev.Respects K R :=
  fun _ name operation _ _ found => respects name operation found

section
variable {K : Transformation → Prop} (respects : ev.Respects K R)

include respects

theorem approximates_invoke {node : Transformation} (kind : K node) {name : String}
    (named : node.identifier? = some name) (parameters : List Payload) :
    Approximates R (ev.invoke node name parameters) (ev.invoke node name parameters) := by
  intro s t related
  simp only [on_invoke]
  cases found : ev.operations.get? name with
  | none => exact .inr ⟨rfl, related⟩
  | some operation =>
    have alike := respects node name operation kind named found
      (ev.call node name operation parameters s) s.queue t.queue related.queue
    have same : operation.answer (ev.call node name operation parameters s) t.queue =
        operation.execute (ev.call node name operation parameters t) := by
      simp only [Operation.answer, call, related.value]
    rw [same] at alike
    exact .inr ⟨congrArg (Except.mapError Fault.error) alike.1, alike.2, related.value⟩

theorem approximates_step {node : Transformation} (kind : K node)
    {resolve resolve' : Transformation → Evaluation α Payload}
    (nested : ∀ child ∈ node.children, Approximates R (resolve child) (resolve' child)) :
    Approximates R (ev.step resolve node) (ev.step resolve' node) := by
  cases node with
  | sequential _ children => exact approximates_pure _
  | parallel _ children => exact approximates_pure _
  | literal _ payload => exact approximates_pure _
  | this _ => exact approximates_pure _
  | operation _ name children =>
    exact approximates_bind (approximates_mapM nested) fun parameters =>
      approximates_invoke respects kind rfl parameters
  | precomputed _ name parameters => exact approximates_invoke respects kind rfl parameters
  | reference _ description noun =>
    exact approximates_bind (approximates_orFail _ _) fun _ => approximates_pure _
  | unary _ operator child =>
    refine approximates_bind (nested child (by simp [Transformation.children])) fun operand => ?_
    exact approximates_bind (approximates_lift _) fun _ => approximates_pure _
  | binary _ operator left right =>
    refine approximates_bind (nested left (by simp [Transformation.children])) fun a => ?_
    refine approximates_bind (nested right (by simp [Transformation.children])) fun b => ?_
    exact approximates_bind (approximates_lift _) fun _ => approximates_pure _
  | ifElse _ condition whenTrue whenFalse =>
    exact approximates_bind (nested condition (by simp [Transformation.children])) fun _ =>
      approximates_pure _
  | switch _ cases children =>
    refine approximates_bind_of_meets (approximates_orFail _ _)
      (meets_orFail (E := fun _ => True) trivial) fun selector first => ?_
    refine approximates_bind (nested selector (List.mem_of_head? first)) fun selected => ?_
    refine approximates_bind (approximates_orFail _ _) fun index => ?_
    exact approximates_bind (approximates_orFail _ _) fun _ => approximates_pure _
  | stochasticSwitch _ probabilities children =>
    refine approximates_bind (approximates_orFail _ _) fun index => ?_
    refine approximates_bind (approximates_orFail _ _) fun branch => ?_
    refine approximates_value_bind fun v => ?_
    exact approximates_bind (approximates_record _) fun _ => approximates_pure _
  | getVariable _ name =>
    refine approximates_value_bind fun v => ?_
    exact approximates_bind (approximates_orFail _ _) fun _ => approximates_pure _
  | setVariable _ name expression =>
    refine approximates_bind (nested expression (by simp [Transformation.children]))
      fun payload => ?_
    refine approximates_value_bind fun v => ?_
    exact approximates_bind (approximates_setValue _) fun _ => approximates_pure _

variable {E : EvalError → Prop} (confined : ev.Confined K E)

include confined

/-- The main statement: with no less fuel, an evaluation on related queues agrees. -/
theorem approximates_evaluate {fuel fuel' : Nat} (more : fuel ≤ fuel') {node : Transformation}
    (kind : K node) : Approximates R (ev.evaluate fuel node) (ev.evaluate fuel' node) := by
  -- the first fuel gives out first, and then nothing is claimed
  induction fuel generalizing fuel' node with
  | zero => exact approximates_outOfFuel _
  | succ fuel ih =>
    obtain ⟨fuel', rfl⟩ : ∃ k, fuel' = k + 1 := ⟨fuel' - 1, by omega⟩
    have lower : fuel ≤ fuel' := by omega
    have below := confined.below node kind
    simp only [evaluate]
    refine approximates_bind_of_meets
      (approximates_step respects kind fun child member =>
        approximates_scratch (ih lower (below child member)))
      (confined.meets_step kind fun child member =>
        meets_scratch (meets_evaluate confined fuel (below child member))) fun step next => ?_
    cases step with
    | proceed payload push =>
      refine approximates_value_bind fun v => ?_
      exact approximates_bind (approximates_setValue _) fun _ =>
        approximates_forM fun pushed member => ih lower (next pushed member)
    | fork payloads push => exact approximates_fail _
    | parallel children => exact approximates_fail _

theorem approximates_resolve {fuel fuel' : Nat} (more : fuel ≤ fuel') {node : Transformation}
    (kind : K node) : Approximates R (ev.resolve fuel node) (ev.resolve fuel' node) :=
  approximates_scratch (approximates_evaluate respects confined more kind)

theorem approximates_turn {fuel fuel' : Nat} (more : fuel ≤ fuel') {node : Transformation}
    (kind : K node) :
    Approximates R (ev.step (ev.resolve fuel) node) (ev.step (ev.resolve fuel') node) :=
  approximates_step respects kind fun child member =>
    approximates_resolve respects confined more (confined.below node kind child member)

end

theorem confined_trivial (ev : Evaluator α) : ev.Confined (fun _ => True) (fun _ => True) where
  below _ _ _ _ := trivial
  nouns _ _ _ _ := trivial
  located _ _ := trivial
  calls node name operation _ _ _ parameters scope := by
    cases (operation.execute (ev.call node name operation parameters scope)).1 with
    | error error => trivial
    | ok step => exact fun _ _ => trivial

end Evaluator
end ProceduralScene
