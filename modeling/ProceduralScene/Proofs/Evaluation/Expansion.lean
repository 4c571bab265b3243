import ProceduralScene.Proofs.Evaluation.Contract
import ProceduralScene.Proofs.Program.Rewriting

/-! Evaluation of expanded nodes. Where a node answers, so does the block that it expands into, in a
program whose rules expand those of the other one, and leaves the same value behind. A node that
only goes on with others takes one more level of nesting than the block, so no more fuel is needed.
The queues have nothing in common, and nodes that receive it are left out. -/
namespace ProceduralScene

open Transformation

variable {α β γ : Type}

inductive Step.Expands (p : Program) : Step → Step → Prop where
  | proceed (payload : Option Payload) {push block : List Transformation}
    (each : Blocks (Transformation.Expands p) push block) :
    Expands p (.proceed payload push) (.proceed payload block)
  | fork (payloads : List Payload) {push block : List Transformation}
    (each : Blocks (Transformation.Expands p) push block) :
    Expands p (.fork payloads push) (.fork payloads block)
  | parallel {children children' : List Transformation}
    (each : List.Forall₂ (fun child child' => Transformation.Expands p child [child']) children
      children') :
    Expands p (.parallel children) (.parallel children')

theorem Step.Expands.refl {p : Program} (step : Step) : step.Expands p step := by
  cases step with
  | proceed payload push => exact .proceed payload (blocks_refl push)
  | fork payloads push => exact .fork payloads (blocks_refl push)
  | parallel children =>
    exact .parallel (List.forall₂_same.mpr fun child _ => expands_refl child)

structure Operation.Carries (operation : Operation α) (p : Program) : Prop where
  blind : operation.receivesQueue = false
  answers : ∀ (call : Call α) (node : Transformation), node.astId = call.node.astId →
    call.node.Expands p [node] → ∀ step, (operation.execute call).1 = .ok step →
      ∃ step', (operation.execute { call with node }).1 = .ok step' ∧ step.Expands p step'

namespace Evaluation

/-- Wherever the first evaluation answers, the second one gives a related answer on the same value,
and leaves the same value. -/
def Mirrors (R : β → γ → Prop) (x : Evaluation α β) (y : Evaluation α γ) : Prop :=
  ∀ s t, s.value = t.value → ∀ b after, on x s = (.ok b, after) →
    ∃ c after', on y t = (.ok c, after') ∧ R b c ∧ after.value = after'.value

section
variable {δ ε : Type} {R : β → γ → Prop} {S : δ → ε → Prop}

theorem mirrors_pure {b : β} {c : γ} (related : R b c) :
    Mirrors R (pure b : Evaluation α β) (pure c) := by
  rintro s t same _ _ ⟨⟩
  exact ⟨c, t, rfl, related, same⟩

theorem mirrors_fail (error : EvalError) (y : Evaluation α γ) :
    Mirrors R (fail error : Evaluation α β) y := by
  rintro s t same _ _ ⟨⟩

theorem mirrors_bind_of_meets {P : β → Prop} {E : EvalError → Prop} {x : Evaluation α β}
    {y : Evaluation α γ} {f : β → Evaluation α δ} {g : γ → Evaluation α ε} (first : Mirrors R x y)
    (met : Meets P E x) (next : ∀ b c, P b → R b c → Mirrors S (f b) (g c)) :
    Mirrors S (x >>= f) (y >>= g) := by
  intro s t same b after ran
  have given := met s
  rw [on_bind] at ran
  rcases here : on x s with ⟨fault | found, mid⟩
  · rw [here] at ran
    cases ran
  · rw [here] at ran given
    obtain ⟨found', mid', there, related, same'⟩ := first s t same found mid here
    obtain ⟨c, after', ran', answers⟩ := next found found' given related mid mid' same' b after ran
    refine ⟨c, after', ?_, answers⟩
    rw [on_bind, there]
    exact ran'

theorem mirrors_bind {x : Evaluation α β} {y : Evaluation α γ} {f : β → Evaluation α δ}
    {g : γ → Evaluation α ε} (first : Mirrors R x y)
    (next : ∀ b c, R b c → Mirrors S (f b) (g c)) : Mirrors S (x >>= f) (y >>= g) :=
  mirrors_bind_of_meets first (meets_trivial x) fun b c _ => next b c

theorem mirrors_bind_eq {x y : Evaluation α β} {f : β → Evaluation α δ} {g : β → Evaluation α ε}
    (first : Mirrors Eq x y) (next : ∀ b, Mirrors S (f b) (g b)) :
    Mirrors S (x >>= f) (y >>= g) := by
  refine mirrors_bind first ?_
  rintro b _ rfl
  exact next b

theorem mirrors_orFail {error error' : EvalError} {b : Option β} {c : Option γ}
    (found : ∀ known, b = some known → ∃ known', c = some known' ∧ R known known') :
    Mirrors R (orFail error b : Evaluation α β) (orFail error' c) := by
  cases b with
  | none => exact mirrors_fail error _
  | some b =>
    obtain ⟨c, rfl, related⟩ := found b rfl
    exact mirrors_pure related

theorem mirrors_orFail_eq {error error' : EvalError} (b : Option β) :
    Mirrors Eq (orFail error b : Evaluation α β) (orFail error' b) :=
  mirrors_orFail fun known found => ⟨known, found, rfl⟩

theorem mirrors_lift (outcome : Except EvalError β) :
    Mirrors Eq (lift outcome : Evaluation α β) (lift outcome) := by
  cases outcome with
  | ok b => exact mirrors_pure rfl
  | error error => exact mirrors_fail error _

theorem mirrors_value : Mirrors Eq (value : Evaluation α Value) value := by
  rintro s t same _ _ ⟨⟩
  exact ⟨t.value, t, rfl, same, same⟩

theorem mirrors_setValue (v : Value) :
    Mirrors Eq (setValue v : Evaluation α Unit) (setValue v) := by
  rintro s t same _ _ ⟨⟩
  exact ⟨(), _, rfl, rfl, rfl⟩

theorem mirrors_record (event event' : Event) :
    Mirrors Eq (record event : Evaluation α Unit) (record event') := by
  rintro s t same _ _ ⟨⟩
  exact ⟨(), _, rfl, rfl, same⟩

theorem mirrors_scratch {x y : Evaluation α Unit} (mirrors : Mirrors Eq x y) :
    Mirrors Eq (scratch x) (scratch y) := by
  intro s t same payload after ran
  rw [on_scratch] at ran
  rcases here : on x s with ⟨fault | _, mid⟩
  · rw [here] at ran
    cases ran
  · rw [here] at ran
    cases ran
    obtain ⟨_, mid', there, _, same'⟩ := mirrors s t same () mid here
    refine ⟨mid'.value.payload, { mid' with value := t.value }, ?_, ?_, same⟩
    · rw [on_scratch, there]
      rfl
    · exact congrArg Value.payload same'

theorem mirrors_mapM {f g : Transformation → Evaluation α δ} {T : Transformation → Transformation → Prop}
    {items items' : List Transformation} (each : List.Forall₂ T items items')
    (mirrors : ∀ item ∈ items, ∀ item', T item item' → Mirrors Eq (f item) (g item')) :
    Mirrors Eq (items.mapM f) (items'.mapM g) := by
  induction each with
  | nil => exact mirrors_pure rfl
  | cons first _ ih =>
    rw [List.mapM_cons, List.mapM_cons]
    refine mirrors_bind_eq (mirrors _ List.mem_cons_self _ first) fun b => ?_
    refine mirrors_bind_eq (ih fun item member => mirrors item (List.mem_cons_of_mem _ member)) ?_
    exact fun bs => mirrors_pure rfl

theorem forM_single (f : Transformation → Evaluation α Unit) (node : Transformation) :
    [node].forM f = f node :=
  bind_pure_unit

theorem mirrors_blocks {f g : Transformation → Evaluation α Unit}
    {R : Transformation → List Transformation → Prop} {nodes block : List Transformation}
    (blocks : Blocks R nodes block)
    (mirrors : ∀ node ∈ nodes, ∀ own, R node own → Mirrors Eq (f node) (own.forM g)) :
    Mirrors Eq (nodes.forM f) (block.forM g) := by
  induction blocks with
  | nil => exact mirrors_pure rfl
  | @cons node block nodes rest first _ ih =>
    have joined : (block ++ rest).forM g = block.forM g >>= fun _ => rest.forM g := List.forM_append
    rw [joined]
    refine mirrors_bind_eq (mirrors node List.mem_cons_self block first) fun _ => ?_
    exact ih fun node member => mirrors node (List.mem_cons_of_mem _ member)

end
end Evaluation

theorem forall₂_getElem? {R : Transformation → Transformation → Prop}
    {nodes nodes' : List Transformation} (each : List.Forall₂ R nodes nodes') {i : Nat}
    {node : Transformation} (found : nodes[i]? = some node) :
    ∃ node', nodes'[i]? = some node' ∧ R node node' := by
  induction each generalizing i with
  | nil => cases found
  | cons first _ ih =>
    cases i with
    | zero =>
      cases found
      exact ⟨_, rfl, first⟩
    | succ i => exact ih found

namespace Evaluator

open Evaluation

/-- Evaluation in another program whose rules expand the own ones, of nodes of a kind. -/
structure Expanding (ev : Evaluator α) (program : Program) (K : Transformation → Prop) : Prop where
  confined : ev.Confined K fun _ => True
  expands : ev.program.Expands program
  carries : ∀ node name operation, K node → node.identifier? = some name →
    ev.operations.get? name = some operation → operation.Carries ev.program

variable {ev : Evaluator α} {program : Program} {K : Transformation → Prop}

theorem step_of_opens {node : Transformation} {children : List Transformation}
    (opens : Opens ev.program node children) (resolve : Transformation → Evaluation α Payload) :
    ev.step resolve node = pure (.andThen children) := by
  cases opens with
  | sequential id children => rfl
  | reference known =>
    simp only [step, known]
    rfl

theorem Confined.opens {E : EvalError → Prop} (confined : ev.Confined K E) {node : Transformation}
    (kind : K node) {children : List Transformation} (opens : Opens ev.program node children) :
    ∀ child ∈ children, K child := by
  cases opens with
  | sequential id children => exact confined.below _ kind
  | reference known =>
    intro child member
    rw [List.mem_singleton.mp member]
    exact confined.nouns _ _ _ known

theorem mirrors_resolve {fuel fuel' : Nat} {node node' : Transformation}
    (mirrors : Mirrors Eq (ev.evaluate fuel node)
      ([node'].forM (evaluate { ev with program } fuel'))) :
    Mirrors Eq (ev.resolve fuel node) (resolve { ev with program } fuel' node') := by
  rw [forM_single] at mirrors
  exact mirrors_scratch mirrors

variable (expanding : ev.Expanding program K)

include expanding

theorem mirrors_invoke {node node' : Transformation} (kind : K node) (same : node'.astId = node.astId)
    (expands : node.Expands ev.program [node']) {name : String}
    (named : node.identifier? = some name) (parameters : List Payload) :
    Mirrors (Step.Expands ev.program) (ev.invoke node name parameters)
      ({ ev with program }.invoke node' name parameters) := by
  intro s t equal step after ran
  rw [on_invoke] at ran
  cases found : ev.operations.get? name with
  | none =>
    rw [found] at ran
    cases ran
  | some operation =>
    rw [found] at ran
    dsimp only at ran
    have carries := expanding.carries node name operation kind named found
    cases answered : (operation.execute (ev.call node name operation parameters s)).1 with
    | error error =>
      rw [answered] at ran
      cases ran
    | ok step =>
      rw [answered] at ran
      cases ran
      obtain ⟨step', answered', expanded⟩ := carries.answers (ev.call node name operation parameters s)
        node' same expands step answered
      have call : Evaluator.call { ev with program } node' name operation parameters t =
          { ev.call node name operation parameters s with node := node' } := by
        simp only [Evaluator.call, carries.blind, equal, identity, Bool.false_eq_true, if_false]
      have ran' : on (invoke { ev with program } node' name parameters) t = (.ok step', { t with
          queue := (operation.execute { ev.call node name operation parameters s with
            node := node' }).2.getD t.queue }) := by
        rw [on_invoke]
        simp only [found, call, answered']
        rfl
      exact ⟨step', _, ran', expanded, equal⟩

theorem mirrors_step {node node' : Transformation} (kind : K node)
    (kept : Kept (Transformation.Expands ev.program) node node')
    {resolve resolve' : Transformation → Evaluation α Payload}
    (nested : ∀ child ∈ node.children, ∀ child', child.Expands ev.program [child'] →
      Mirrors Eq (resolve child) (resolve' child')) :
    Mirrors (Step.Expands ev.program) (ev.step resolve node)
      ({ ev with program }.step resolve' node') := by
  have pass (payload : Option Payload) :
      Step.Expands ev.program (.proceed payload []) (.proceed payload []) := .proceed payload .nil
  have one {child child' : Transformation} (expands : child.Expands ev.program [child']) :
      Step.Expands ev.program (.andThen [child]) (.andThen [child']) :=
    .proceed none (.single expands)
  have same := kept.astId
  have expands := Transformation.Expands.kept kept
  cases kept with
  | sequential id each => exact mirrors_pure (.proceed none each)
  | @inside node children each =>
    cases node with
    | sequential id children => exact mirrors_pure (.proceed none (.of_each each))
    | parallel id children => exact mirrors_pure (.parallel each)
    | literal id payload => exact mirrors_pure (pass _)
    | this id => exact mirrors_pure (pass _)
    | operation id name children =>
      refine mirrors_bind_eq (mirrors_mapM each nested) fun parameters => ?_
      exact mirrors_invoke expanding kind same expands rfl parameters
    | precomputed id name parameters =>
      exact mirrors_invoke expanding kind same expands rfl parameters
    | reference id description noun =>
      refine mirrors_bind (mirrors_orFail fun found known => expanding.expands.noun? known) ?_
      exact fun found found' expanded => mirrors_pure (one expanded)
    | unary id operator child =>
      rcases each with _ | ⟨first, ⟨⟩⟩
      refine mirrors_bind_eq (nested child (by simp [Transformation.children]) _ first) fun a => ?_
      exact mirrors_bind_eq (mirrors_lift _) fun payload => mirrors_pure (pass _)
    | binary id operator left right =>
      rcases each with _ | ⟨first, _ | ⟨second, ⟨⟩⟩⟩
      refine mirrors_bind_eq (nested left (by simp [Transformation.children]) _ first) fun a => ?_
      refine mirrors_bind_eq (nested right (by simp [Transformation.children]) _ second) fun b => ?_
      exact mirrors_bind_eq (mirrors_lift _) fun payload => mirrors_pure (pass _)
    | ifElse id condition whenTrue whenFalse =>
      rcases each with _ | ⟨first, _ | ⟨second, _ | ⟨third, ⟨⟩⟩⟩⟩
      refine mirrors_bind_eq (nested condition (by simp [Transformation.children]) _ first) ?_
      intro chosen
      cases chosen.isTruthy with
      | true => exact mirrors_pure (one second)
      | false => exact mirrors_pure (one third)
    | switch id cases children =>
      -- a selector is resolved because it is one of the children, which a plain bind forgets
      refine mirrors_bind_of_meets (R := fun child child' => child.Expands ev.program [child'])
        (mirrors_orFail fun selector first => ?_) (meets_orFail (E := fun _ => True) trivial)
        fun selector selector' first expands => ?_
      · rw [List.head?_eq_getElem?] at first ⊢
        exact forall₂_getElem? each first
      refine mirrors_bind_eq (nested selector (List.mem_of_head? first) selector' expands) ?_
      intro selected
      refine mirrors_bind_eq (mirrors_orFail_eq _) fun index => ?_
      refine mirrors_bind (mirrors_orFail fun branch found => forall₂_getElem? each found) ?_
      exact fun branch branch' expands => mirrors_pure (one expands)
    | stochasticSwitch id probabilities children =>
      refine mirrors_bind_eq (mirrors_orFail_eq _) fun index => ?_
      refine mirrors_bind (mirrors_orFail fun branch found => forall₂_getElem? each found) ?_
      intro branch branch' expands
      refine mirrors_bind_eq mirrors_value fun v => ?_
      exact mirrors_bind_eq (mirrors_record _ _) fun _ => mirrors_pure (one expands)
    | getVariable id name =>
      refine mirrors_bind_eq mirrors_value fun v => ?_
      exact mirrors_bind_eq (mirrors_orFail_eq _) fun payload => mirrors_pure (pass _)
    | setVariable id name expression =>
      rcases each with _ | ⟨first, ⟨⟩⟩
      refine mirrors_bind_eq (nested expression (by simp [Transformation.children]) _ first) ?_
      intro payload
      refine mirrors_bind_eq mirrors_value fun v => ?_
      exact mirrors_bind_eq (mirrors_setValue _) fun _ => mirrors_pure (pass _)

/-- The main statement: a block answers wherever the node does that it stands for. -/
theorem mirrors_evaluate {fuel fuel' : Nat} (more : fuel ≤ fuel') {node : Transformation}
    (kind : K node) {block : List Transformation} (expands : node.Expands ev.program block) :
    Mirrors Eq (ev.evaluate fuel node) (block.forM (evaluate { ev with program } fuel')) := by
  -- on the fuel of the first evaluation, which is never less nested than the second one
  induction fuel generalizing fuel' node block with
  | zero => rintro s t same _ _ ⟨⟩
  | succ fuel ih =>
    cases expands with
    | opened opens each =>
      intro s t same b after ran
      have kinds := expanding.confined.opens kind opens
      rw [on_evaluate_succ, step_of_opens opens] at ran
      exact mirrors_blocks each (fun child member own expands =>
        ih (by omega) (kinds child member) expands) s t same b after ran
    | @kept _ node' kept =>
      obtain ⟨fuel', rfl⟩ : ∃ k, fuel' = k + 1 := ⟨fuel' - 1, by omega⟩
      have lower : fuel ≤ fuel' := by omega
      have below := expanding.confined.below node kind
      rw [forM_single, evaluate, evaluate]
      refine mirrors_bind_of_meets (mirrors_step expanding kind kept fun child member _ expands =>
          mirrors_resolve (ih lower (below child member) expands))
        (expanding.confined.meets_step kind fun child member =>
          meets_resolve expanding.confined fuel (below child member)) fun step step' next related => ?_
      cases related with
      | proceed payload each =>
        refine mirrors_bind_eq mirrors_value fun v => ?_
        refine mirrors_bind_eq (mirrors_setValue _) fun _ => ?_
        exact mirrors_blocks each fun pushed member own expands =>
          ih lower (next pushed member) expands
      | fork payloads each => exact mirrors_fail _ _
      | parallel each => exact mirrors_fail _ _

theorem mirrors_turn (fuel : Nat) {node node' : Transformation} (kind : K node)
    (kept : Kept (Transformation.Expands ev.program) node node') :
    Mirrors (Step.Expands ev.program) (ev.step (ev.resolve fuel) node)
      (step { ev with program } (resolve { ev with program } fuel) node') :=
  mirrors_step expanding kind kept fun child member _ expands => mirrors_resolve
    (mirrors_evaluate expanding (Nat.le_refl fuel) (expanding.confined.below node kind child member)
      expands)

end Evaluator
end ProceduralScene
