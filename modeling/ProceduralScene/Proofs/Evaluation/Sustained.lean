import ProceduralScene.Proofs.Evaluation.Contract

/-! What an evaluation keeps up once the value that it is run on has it. If the payloads that a
program gives, the results of the operators and the answers of the operations are all of a kind,
then no payload of another kind ever comes up, neither as the payload evaluated nor in a variable.
The errors are those of the operations and the few that evaluation raises by itself. -/
namespace ProceduralScene

variable {α β γ : Type}

structure Value.All (V : Payload → Prop) (v : Value) : Prop where
  payload : V v.payload
  vars : ∀ entry ∈ v.vars.entries, V entry.2

namespace Value.All

variable {V : Payload → Prop} {v : Value}

theorem get? (all : v.All V) {name : String} {payload : Payload}
    (known : v.get? name = some payload) : V payload :=
  all.vars (name, payload) (Sorted.mem_of_get? known)

theorem insert (all : v.All V) (name : String) {payload : Payload} (kind : V payload) :
    ({ v with vars := v.vars.insert name payload } : Value).All V where
  payload := all.payload
  vars entry member := by
    rcases mem_insertSorted member with rfl | member
    · exact kind
    · exact all.vars entry member

theorem withPayload (all : v.All V) {payload : Payload} (kind : V payload) :
    ({ v with payload } : Value).All V where
  payload := kind
  vars := all.vars

theorem branch (all : v.All V) {payload : Payload} (kind : V payload) {ordinal : Nat}
    (number : V (.number ordinal.toFloat)) : (v.branch payload ordinal).All V :=
  (all.withPayload kind).insert Value.indexVariable number

end Value.All

def Transformation.given : Transformation → List Payload
  | literal _ payload => [payload]
  | precomputed _ _ parameters => parameters
  | _ => []

def Step.payloads : Step → List Payload
  | proceed payload _ => payload.toList
  | fork payloads _ => payloads
  | parallel _ => []

structure Step.Within (K : Transformation → Prop) (V : Payload → Prop) (step : Step) : Prop where
  payloads : ∀ payload ∈ step.payloads, V payload
  nodes : ∀ next ∈ step.nodes, K next

/-- The errors that evaluation raises by itself; all others come from operations. -/
inductive EvalError.Raised : EvalError → Prop where
  | unknownNoun (astId description noun : String) : Raised (.unknownNoun astId description noun)
  | unknownOperation (astId name : String) : Raised (.unknownOperation astId name)
  | unknownVariable (astId name : String) : Raised (.unknownVariable astId name)
  | noCaseMatched (astId selector : String) : Raised (.noCaseMatched astId selector)
  | fork (astId : String) : Raised (.forkInSynchronousEvaluation astId)
  | typeMismatch (astId message : String) : Raised (.typeMismatch astId message)
  | noSelector (astId : String) : Raised (.invalidProgram astId "switch without a selector")
  | noProbabilities (astId : String) :
    Raised (.invalidProgram astId "stochastic switch without probabilities")
  | missingBranch (node : Transformation) (index : Nat) :
    Raised (Evaluator.missingBranch node index)

namespace Evaluation

/-- On values of a kind an evaluation gives a `P` and leaves such a value, or fails with an `E`,
unless it is out of fuel. -/
def Sustains (V : Payload → Prop) (P : β → Prop) (E : EvalError → Prop) (x : Evaluation α β) :
    Prop :=
  ∀ s, s.value.All V → match on x s with
    | (.ok b, after) => P b ∧ after.value.All V
    | (.error (.error error), _) => E error
    | (.error .outOfFuel, _) => True

variable {V : Payload → Prop} {P : β → Prop} {Q : γ → Prop} {E : EvalError → Prop}

theorem sustains_pure {b : β} (holds : P b) : Sustains V P E (pure b : Evaluation α β) :=
  fun _ all => ⟨holds, all⟩

theorem sustains_fail {error : EvalError} (holds : E error) :
    Sustains V P E (fail error : Evaluation α β) := fun _ _ => holds

theorem sustains_bind {x : Evaluation α β} {f : β → Evaluation α γ} (first : Sustains V P E x)
    (next : ∀ b, P b → Sustains V Q E (f b)) : Sustains V Q E (x >>= f) := by
  intro s all
  have sustained := first s all
  rw [on_bind]
  rcases ran : on x s with ⟨(error | _) | b, after⟩ <;> rw [ran] at sustained
  · exact sustained
  · trivial
  · exact next b sustained.1 after sustained.2

theorem sustains_orFail {error : EvalError} {b : Option β} (holds : E error) :
    Sustains V (fun found => b = some found) E (orFail error b : Evaluation α β) := by
  cases b with
  | none => exact sustains_fail holds
  | some b => exact sustains_pure rfl

theorem sustains_lift {outcome : Except EvalError β} (fulfils : Fulfils P E outcome) :
    Sustains V P E (lift outcome : Evaluation α β) := by
  cases outcome with
  | ok b => exact sustains_pure fulfils
  | error error => exact sustains_fail fulfils

theorem sustains_value : Sustains V (Value.All V) E (value : Evaluation α Value) :=
  fun _ all => ⟨all, all⟩

theorem sustains_setValue {v : Value} (all : v.All V) :
    Sustains V (fun _ => True) E (setValue v : Evaluation α Unit) := fun _ _ => ⟨trivial, all⟩

theorem sustains_record (event : Event) :
    Sustains V (fun _ => True) E (record event : Evaluation α Unit) := fun _ all => ⟨trivial, all⟩

theorem sustains_scratch {x : Evaluation α Unit} (sustained : Sustains V (fun _ => True) E x) :
    Sustains V V E (scratch x) := by
  intro s all
  have holds := sustained s all
  rw [on_scratch]
  rcases ran : on x s with ⟨(error | _) | b, after⟩ <;> rw [ran] at holds
  · exact holds
  · trivial
  · exact ⟨holds.2.payload, all⟩

theorem sustains_mapM {f : β → Evaluation α γ} {items : List β}
    (each : ∀ b ∈ items, Sustains V Q E (f b)) :
    Sustains V (fun found => ∀ c ∈ found, Q c) E (items.mapM f) := by
  induction items with
  | nil => exact sustains_pure nofun
  | cons item rest ih =>
    rw [List.mapM_cons]
    refine sustains_bind (each item List.mem_cons_self) fun b first => ?_
    refine sustains_bind (ih fun b member => each b (List.mem_cons_of_mem _ member)) ?_
    intro bs others
    exact sustains_pure (List.forall_mem_cons.mpr ⟨first, others⟩)

theorem sustains_forM {f : β → Evaluation α PUnit} {items : List β}
    (each : ∀ b ∈ items, Sustains V (fun _ => True) E (f b)) :
    Sustains V (fun _ => True) E (items.forM f) := by
  induction items with
  | nil => exact sustains_pure trivial
  | cons item rest ih =>
    refine sustains_bind (each item List.mem_cons_self) fun _ _ => ?_
    exact ih fun b member => each b (List.mem_cons_of_mem _ member)

end Evaluation

def Payload.isScalar : Payload → Bool
  | bool _ | number _ | text _ => true
  | _ => false

theorem UnaryOperator.apply_within (astId : String) (operator : UnaryOperator)
    (operand : Payload) :
    Fulfils (fun result => result.isScalar = true) EvalError.Raised
      (operator.apply astId operand) := by
  unfold apply
  split
  · rfl
  · rfl
  · exact .typeMismatch _ _

theorem BinaryOperator.combine_scalar {operator : BinaryOperator} {left right result : Payload}
    (combined : operator.combine left right = some result) : result.isScalar = true := by
  unfold combine at combined
  split at combined
  · unfold onNumbers at combined
    cases arithmetic : operator.arithmetic? with
    | some f =>
      rw [arithmetic] at combined
      cases combined
      rfl
    | none =>
      rw [arithmetic] at combined
      obtain ⟨_, _, rfl⟩ := Option.map_eq_some_iff.mp combined
      rfl
  · unfold onTexts at combined
    split at combined
    · cases combined
      rfl
    · obtain ⟨_, _, rfl⟩ := Option.map_eq_some_iff.mp combined
      rfl
  · split at combined
    · cases combined
      rfl
    · cases combined
  · split at combined
    · cases combined
      rfl
    · cases combined
  · cases combined

theorem BinaryOperator.apply_within (astId : String) (operator : BinaryOperator)
    (left right : Payload) :
    Fulfils (fun result => result = left ∨ result = right ∨ result.isScalar = true)
      EvalError.Raised (operator.apply astId left right) := by
  unfold apply
  split
  · show (if left.isTruthy then right else left) = left ∨ _
    split
    · exact .inr (.inl rfl)
    · exact .inl rfl
  · show (if left.isTruthy then left else right) = left ∨ _
    split
    · exact .inl rfl
    · exact .inr (.inl rfl)
  · exact .inr (.inr rfl)
  · exact .inr (.inr rfl)
  · split
    next result combined => exact .inr (.inr (combine_scalar combined))
    · exact .typeMismatch _ _

namespace Evaluator

open Evaluation

/-- A kind of nodes and a kind of payloads that evaluation does not leave, and a kind of errors that
it keeps to. -/
structure Sustained (ev : Evaluator α) (K : Transformation → Prop) (V : Payload → Prop)
    (E : EvalError → Prop) : Prop where
  below : ∀ node, K node → ∀ child ∈ node.children, K child
  nouns : ∀ description noun found, ev.program.noun? description noun = some found →
    K found.transformation
  given : ∀ node, K node → ∀ payload ∈ node.given, V payload
  scalars : ∀ payload, payload.isScalar = true → V payload
  raised : ∀ error, error.Raised → E error
  calls : ∀ node name operation, K node → node.identifier? = some name →
    ev.operations.get? name = some operation → ∀ parameters scope,
      (∀ parameter ∈ parameters, V parameter) → scope.value.All V →
        Fulfils (Step.Within K V) E
          (operation.execute (ev.call node name operation parameters scope)).1

variable {ev : Evaluator α} {K : Transformation → Prop} {V : Payload → Prop}
  {E : EvalError → Prop} (sustained : ev.Sustained K V E)

include sustained

theorem sustains_invoke {node : Transformation} (kind : K node) {name : String}
    (named : node.identifier? = some name) {parameters : List Payload}
    (given : ∀ parameter ∈ parameters, V parameter) :
    Sustains V (Step.Within K V) E (ev.invoke node name parameters) := by
  intro scope all
  rw [on_invoke]
  cases found : ev.operations.get? name with
  | none => exact sustained.raised _ (.unknownOperation _ _)
  | some operation =>
    have fulfils := sustained.calls node name operation kind named found parameters scope given all
    dsimp only
    cases answered : (operation.execute (ev.call node name operation parameters scope)).1 with
    | error error =>
      rw [answered] at fulfils
      exact fulfils
    | ok step =>
      rw [answered] at fulfils
      exact ⟨fulfils, all⟩

theorem Sustained.step {node : Transformation} (kind : K node)
    {resolve : Transformation → Evaluation α Payload}
    (nested : ∀ child ∈ node.children, Sustains V V E (resolve child)) :
    Sustains V (Step.Within K V) E (ev.step resolve node) := by
  have below := sustained.below node kind
  have pass : Step.pass.Within K V := ⟨nofun, nofun⟩
  have replace {payload : Payload} (good : V payload) : (Step.replace payload).Within K V := by
    refine ⟨fun other member => ?_, nofun⟩
    rw [List.mem_singleton.mp member]
    exact good
  have one {next : Transformation} (good : K next) : (Step.andThen [next]).Within K V := by
    refine ⟨nofun, fun other member => ?_⟩
    rw [List.mem_singleton.mp member]
    exact good
  cases node with
  | sequential _ children => exact sustains_pure ⟨nofun, below⟩
  | parallel _ children => exact sustains_pure ⟨nofun, below⟩
  | literal _ payload =>
    exact sustains_pure (replace (sustained.given _ kind _ (List.mem_singleton_self _)))
  | this _ => exact sustains_pure pass
  | operation _ name children =>
    exact sustains_bind (sustains_mapM nested) fun parameters given =>
      sustains_invoke sustained kind rfl given
  | precomputed _ name parameters =>
    exact sustains_invoke sustained kind rfl (sustained.given _ kind)
  | reference _ description noun =>
    refine sustains_bind (sustains_orFail (sustained.raised _ (.unknownNoun _ _ _))) ?_
    intro found known
    exact sustains_pure (one (sustained.nouns description noun found known))
  | unary astId operator child =>
    refine sustains_bind (nested child (by simp [Transformation.children])) fun operand _ => ?_
    refine sustains_bind (sustains_lift ((operator.apply_within astId operand).imp
      (fun _ scalar => sustained.scalars _ scalar) fun _ => sustained.raised _)) ?_
    exact fun payload good => sustains_pure (replace good)
  | binary astId operator left right =>
    refine sustains_bind (nested left (by simp [Transformation.children])) fun a first => ?_
    refine sustains_bind (nested right (by simp [Transformation.children])) fun b second => ?_
    have result (payload : Payload)
        (among : payload = a ∨ payload = b ∨ payload.isScalar = true) : V payload := by
      rcases among with rfl | rfl | scalar
      · exact first
      · exact second
      · exact sustained.scalars _ scalar
    refine sustains_bind (sustains_lift ((operator.apply_within astId a b).imp result
      fun _ => sustained.raised _)) ?_
    exact fun payload good => sustains_pure (replace good)
  | ifElse _ condition whenTrue whenFalse =>
    refine sustains_bind (nested condition (by simp [Transformation.children])) fun chosen _ => ?_
    refine sustains_pure (one (below _ ?_))
    cases chosen.isTruthy <;> simp [Transformation.children]
  | switch _ cases children =>
    refine sustains_bind (sustains_orFail (sustained.raised _ (.noSelector _))) ?_
    intro selector first
    refine sustains_bind (nested selector (List.mem_of_head? first)) fun selected _ => ?_
    refine sustains_bind (sustains_orFail (sustained.raised _ (.noCaseMatched _ _))) ?_
    intro index _
    refine sustains_bind (sustains_orFail (sustained.raised _ (.missingBranch _ _))) ?_
    exact fun branch found => sustains_pure (one (below _ (List.mem_of_getElem? found)))
  | stochasticSwitch _ probabilities children =>
    refine sustains_bind (sustains_orFail (sustained.raised _ (.noProbabilities _))) ?_
    intro index _
    refine sustains_bind (sustains_orFail (sustained.raised _ (.missingBranch _ _))) ?_
    intro branch found
    refine sustains_bind sustains_value fun v _ => ?_
    refine sustains_bind (sustains_record _) fun _ _ => ?_
    exact sustains_pure (one (below _ (List.mem_of_getElem? found)))
  | getVariable _ name =>
    refine sustains_bind sustains_value fun v all => ?_
    refine sustains_bind (sustains_orFail (sustained.raised _ (.unknownVariable _ _))) ?_
    exact fun payload known => sustains_pure (replace (all.get? known))
  | setVariable _ name expression =>
    refine sustains_bind (nested expression (by simp [Transformation.children])) ?_
    intro payload good
    refine sustains_bind sustains_value fun v all => ?_
    exact sustains_bind (sustains_setValue (all.insert name good)) fun _ _ => sustains_pure pass

theorem sustains_evaluate (fuel : Nat) {node : Transformation} (kind : K node) :
    Sustains V (fun _ => True) E (ev.evaluate fuel node) := by
  induction fuel generalizing node with
  | zero => exact fun _ _ => trivial
  | succ fuel ih =>
    rw [evaluate]
    refine sustains_bind (sustained.step kind fun child member =>
      sustains_scratch (ih (sustained.below node kind child member))) fun step within => ?_
    cases step with
    | proceed payload push =>
      refine sustains_bind sustains_value fun v all => ?_
      have next : V (payload.getD v.payload) := by
        cases payload with
        | none => exact all.payload
        | some payload => exact within.payloads payload (List.mem_singleton_self _)
      exact sustains_bind (sustains_setValue (all.withPayload next)) fun _ _ =>
        sustains_forM fun pushed member => ih (within.nodes pushed member)
    | fork payloads push => exact sustains_fail (sustained.raised _ (.fork _))
    | parallel children => exact sustains_fail (sustained.raised _ (.fork _))

/-- The main statement: nested expressions give payloads of the kind. -/
theorem sustains_resolve (fuel : Nat) {node : Transformation} (kind : K node) :
    Sustains V V E (ev.resolve fuel node) :=
  sustains_scratch (sustains_evaluate sustained fuel kind)

end Evaluator
end ProceduralScene
