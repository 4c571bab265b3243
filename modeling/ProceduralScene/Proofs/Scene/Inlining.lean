import ProceduralScene.Proofs.Interpreter.Expansion
import ProceduralScene.Proofs.Scene.Solitude

/-! Scenes whose rules have been rewritten. All that an operation without the queue reads of its
node is the id that it writes down, and the node itself is nothing but run again after a wait. Hence
a scene retires the same entries when a rule stands in the place of a reference to it, or the children
of a sequence in the place of a sequence in a sequence. -/
namespace ProceduralScene

open Transformation

variable {α : Type}

namespace Call

variable {call : Call α} {node : Transformation} (same : node.astId = call.node.astId)

include same

theorem parameterError_node (index : Nat) (message : String) :
    { call with node }.parameterError index message = call.parameterError index message := by
  simp only [parameterError, astId, same]

theorem number_node (index : Nat) : { call with node }.number index = call.number index := by
  simp only [number, parameterError_node same]
  rfl

theorem optionalNumber_node (index : Nat) :
    { call with node }.optionalNumber index = call.optionalNumber index := by
  simp only [optionalNumber, number_node same]
  rfl

theorem motion_node : { call with node }.motion = call.motion := by
  simp only [motion, payloadMismatch, astId, same]

theorem pathway_node : { call with node }.pathway = call.pathway := by
  simp only [pathway, payloadMismatch, astId, same]

theorem threeNumbers_node :
    Movement.threeNumbers { call with node } = Movement.threeNumbers call := by
  simp only [Movement.threeNumbers, number_node same]

theorem lastKeyframe_node (m : Motion) :
    Movement.lastKeyframe { call with node } m = Movement.lastKeyframe call m := by
  simp only [Movement.lastKeyframe, astId, same]

theorem fissionCount_node (index : Nat) (amount : Float) :
    Movement.fissionCount { call with node } index amount =
      Movement.fissionCount call index amount := by
  simp only [Movement.fissionCount, parameterError_node same]

theorem point_node : Paving.point { call with node } = Paving.point call := by
  simp only [Paving.point, number_node same, astId, same]

end Call

namespace Operation

variable {p : Program}

theorem Carries.ofStep {step : Call α → Except EvalError Step}
    (answers : ∀ (call : Call α) (node : Transformation), node.astId = call.node.astId →
      call.node.Expands p [node] → ∀ result, step call = .ok result →
        ∃ result', step { call with node } = .ok result' ∧ result.Expands p result') :
    (Operation.ofStep step).withThis.Carries p := ⟨rfl, answers⟩

theorem Carries.ofSame {step : Call α → Except EvalError Step}
    (same : ∀ (call : Call α) (node : Transformation), node.astId = call.node.astId →
      step { call with node } = step call) : (Operation.ofStep step).withThis.Carries p :=
  .ofStep fun call node own _ result answered =>
    ⟨result, (same call node own).trans answered, .refl result⟩

end Operation

namespace Movement

variable {call : Call α} {node : Transformation} (same : node.astId = call.node.astId)

include same

theorem moveBy_node : moveBy { call with node } = moveBy call := by
  simp only [moveBy, Call.motion_node same, Call.threeNumbers_node same,
    Call.lastKeyframe_node same, Call.astId, same]

theorem wait_node : wait { call with node } = wait call := by
  simp only [wait, Call.motion_node same, Call.number_node same, Call.lastKeyframe_node same,
    Call.astId, same]

theorem later_node : later { call with node } = later call := by
  simp only [later, Call.motion_node same, Call.number_node same, Call.lastKeyframe_node same]

theorem speed_node : speed { call with node } = speed call := by
  simp only [speed, Call.motion_node same, Call.number_node same, Call.lastKeyframe_node same]

theorem clone_node : clone { call with node } = clone call := by
  simp only [clone, Call.motion_node same, Call.number_node same, Call.fissionCount_node same]

theorem moveTo_expands {p : Program} (expands : call.node.Expands p [node]) (retryDelay : Float)
    {step : Step} (answered : moveTo retryDelay call = .ok step) :
    ∃ step', moveTo retryDelay { call with node } = .ok step' ∧ step.Expands p step' := by
  have again (m : Motion) :
      (retry call m retryDelay).Expands p (retry { call with node } m retryDelay) := by
    simp only [retry, Call.astId, same]
    exact .proceed _ (.cons (expands_refl _) (.single expands))
  simp only [moveTo, Call.motion_node same, Call.threeNumbers_node same,
    Call.optionalNumber_node same, Call.lastKeyframe_node same, Call.parameterError_node same,
    Call.astId, same] at answered ⊢
  cases given : call.motion with
  | error error =>
    rw [given] at answered
    cases answered
  | ok m =>
    rw [given] at answered
    simp only [bind, Except.bind] at answered ⊢
    split at answered
    · exact ⟨step, answered, .refl step⟩
    · exact ⟨step, answered, .refl step⟩
    · cases answered
      exact ⟨_, rfl, again m⟩
    · cases answered
      exact ⟨_, rfl, again m⟩
    · cases answered

end Movement

namespace Paving

variable {call : Call α} {node : Transformation} (same : node.astId = call.node.astId)

include same

theorem pathwayFrom_node : pathwayFrom { call with node } = pathwayFrom call := by
  simp only [pathwayFrom, Call.pathway_node same, Call.point_node same]

theorem pathwayTo_node : pathwayTo { call with node } = pathwayTo call := by
  simp only [pathwayTo, Call.pathway_node same, Call.point_node same]

end Paving

namespace Transformation

theorem identifier?_withChildren (node : Transformation) (children : List Transformation) :
    (node.withChildren children).identifier? = node.identifier? := by
  unfold withChildren
  split <;> rfl

theorem Rewrites.readsQueue {operations : Registry α} {p : Program}
    (blind : p.readsQueue operations = false) {node node' : Transformation}
    (rewrites : Rewrites p node node') (own : node.readsQueue operations = false) :
    node'.readsQueue operations = false := by
  induction rewrites with
  | inline known =>
    obtain ⟨d, described, named⟩ := Option.bind_eq_some_iff.mp known
    exact Program.noun_readsQueue blind (mem_of_lookupKey described) named
  | splice id inner before children after =>
    obtain ⟨silent, below⟩ := readsQueue_iff_children.mp own
    refine readsQueue_iff_children.mpr ⟨silent, fun child member => ?_⟩
    have spliced : (sequential inner children).readsQueue operations = false :=
      below _ (List.mem_append_right _ List.mem_cons_self)
    rcases List.mem_append.mp member with early | member
    · exact below child (List.mem_append_left _ early)
    · rcases List.mem_append.mp member with here | late
      · exact (readsQueue_iff_children.mp spliced).2 child here
      · exact below child (List.mem_append_right _ (List.mem_cons_of_mem _ late))
  | @inside node child child' before after children _ ih =>
    obtain ⟨silent, below⟩ := readsQueue_iff_children.mp own
    rw [children] at below
    have same : (before ++ child' :: after).length = node.children.length := by
      rw [children, List.length_append, List.length_append, List.length_cons, List.length_cons]
    refine readsQueue_iff_children.mpr ⟨?_, ?_⟩
    · rwa [identifier?_withChildren]
    · rw [children_withChildren same]
      intro other member
      rcases List.mem_append.mp member with early | member
      · exact below other (List.mem_append_left _ early)
      · rcases List.mem_cons.mp member with rfl | late
        · exact ih (below child (List.mem_append_right _ List.mem_cons_self))
        · exact below other (List.mem_append_right _ (List.mem_cons_of_mem _ late))

end Transformation

theorem Program.Rewrites.readsQueue {operations : Registry α} {p p' : Program}
    (rewrites : p.Rewrites p') (blind : p.readsQueue operations = false) :
    p'.readsQueue operations = false := by
  obtain @⟨name, key, noun, rule, known, rewrites⟩ := rewrites
  obtain ⟨d, described, named⟩ := Option.bind_eq_some_iff.mp known
  have old : ∀ entry ∈ p.entries, ∀ noun ∈ entry.2.nouns.entries,
      noun.2.transformation.readsQueue operations = false := Program.readsQueue_iff.mp blind
  have new : rule.readsQueue operations = false :=
    rewrites.readsQueue blind (Program.noun_readsQueue blind (mem_of_lookupKey described) named)
  rw [Program.readsQueue_iff, Program.withRule]
  intro entry written
  obtain ⟨⟨other, d⟩, member, rfl⟩ := List.mem_map.mp written
  dsimp only
  split
  · intro inner written
    obtain ⟨⟨noun', found⟩, below, rfl⟩ := List.mem_map.mp written
    dsimp only
    split
    · exact new
    · exact old _ member _ below
  · exact old _ member

namespace Scene

open Movement Paving

/-- An operation of a scene that does not receive the queue answers a call by an expanded node as it
answers the node. -/
theorem operations_carry (config : SceneConfig) (p : Program) {name : String}
    {operation : Operation Network} (found : (operations config).get? name = some operation)
    (blind : operation.receivesQueue = false) : operation.Carries p := by
  have motions : ∀ entry ∈ (motionOperations config.retryDelay).entries,
      entry.2.receivesQueue = false → entry.2.Carries p := by
    refine Sorted.forall_mem_ofList ?_
    simp only [List.forall_mem_cons]
    exact ⟨fun _ => .ofStep fun call node same expands step =>
        moveTo_expands same expands config.retryDelay,
      fun _ => .ofSame fun _ _ => moveBy_node, fun _ => .ofSame fun _ _ => wait_node,
      fun _ => .ofSame fun _ _ => later_node, fun _ => .ofSame fun _ _ => speed_node,
      fun _ => .ofSame fun _ _ => clone_node, nofun, nofun, nofun, nofun, by simp⟩
  have pathways : ∀ entry ∈ pathwayOperations.entries,
      entry.2.receivesQueue = false → entry.2.Carries p := by
    refine Sorted.forall_mem_ofList ?_
    simp only [List.forall_mem_cons]
    exact ⟨fun _ => .ofSame fun _ _ => pathwayFrom_node,
      fun _ => .ofSame fun _ _ => pathwayTo_node, by simp⟩
  exact operation_of_get? config
    (P := fun entry => entry.2.receivesQueue = false → entry.2.Carries p) motions pathways found blind

theorem engine_expanding (scene : SceneConfig) (config : EngineConfig) {program program' : Program}
    (blind : program.readsQueue (operations scene) = false) (expands : program.Expands program') :
    (engine scene config).Expanding program program' fun node =>
      node.readsQueue (operations scene) = false where
  blind := engine_blind scene config blind
  expands := expands
  carries node name operation kind named found := by
    obtain ⟨known, reads⟩ := called_of_kind scene config kind named found
    exact operations_carry scene program known reads

/-- Where no node names an operation that receives the queue, a rule in the place of a reference to
it, and the children of a sequence in the place of a sequence in a sequence, change nothing in what
a run to a final report retires, nor keep a program from coming to one. -/
theorem runsTo_rewritten (scene : SceneConfig) (config : EngineConfig) {program program' : Program}
    (blind : program.readsQueue (operations scene) = false) (rewrites : program.Rewrites program')
    {retired : List Entry} (runs : (engine scene config).RunsTo program retired) :
    (∃ retired', (engine scene config).RunsTo program' retired') ∧
      ∀ retired', (engine scene config).RunsTo program' retired' → retired.Perm retired' :=
  runs.expanded (engine_expanding scene config blind rewrites.expands)
    (engine_blind scene config (rewrites.readsQueue blind)) (engine_steady scene config)
    (uncached_publish scene config)

def unmoved : Transformation := .binary "same" .equal (.this "here") (.getVariable "there" "before")

def target (condition : Transformation) : Transformation :=
  .ifElse "whether" condition (.literal "unknown" .nil) (.literal "far" (.number 4))

/-- A move that is tried again until its target is known. -/
def errand (condition : Transformation) : Transformation :=
  .sequential "errand" [
    .setVariable "note" "before" (.this "now"),
    .operation "go" "moveTo"
      [target condition, .literal "y" (.number 0), .literal "z" (.number 0)],
    .operation "double" "clone" [.literal "two" (.number 2)]]

theorem errand_rewrites {p : Program} {condition condition' : Transformation}
    (rewrites : condition.Rewrites p condition') :
    (errand condition).Rewrites p (errand condition') := by
  have known : (target condition).Rewrites p (target condition') :=
    @Rewrites.inside p (target condition) _ _ [] _ rfl rewrites
  have move := @Rewrites.inside p (.operation "go" "moveTo" [target condition,
    .literal "y" (.number 0), .literal "z" (.number 0)]) _ _ [] _ rfl known
  exact @Rewrites.inside p (errand condition) _ _ [_] _ rfl move

def porter : Program := .ofList [
  ("porter", {
    initialVariables := .empty
    nouns := .ofList [("errand", ⟨"errand", errand (.reference "ask" "porter" "unmoved")⟩),
      ("unmoved", ⟨"unmoved", unmoved⟩)]
    root := "errand" })]

/-- The condition is evaluated twice: once before the wait, and once after it. -/
theorem porter_rewritten :
    porter.readsQueue (operations {}) = false ∧
      porter.Rewrites (porter.withRule "porter" "errand" (errand unmoved)) ∧
        (gathered porter).retired.length = 2 ∧ (gathered porter).retired.Perm
          (gathered (porter.withRule "porter" "errand" (errand unmoved))).retired := by
  have blind : porter.readsQueue (operations {}) = false := by decide +kernel
  have asks : porter.noun? "porter" "errand" =
      some ⟨"errand", errand (.reference "ask" "porter" "unmoved")⟩ := rfl
  have asked : porter.noun? "porter" "unmoved" = some ⟨"unmoved", unmoved⟩ := rfl
  have rewrites := Program.Rewrites.rule asks (errand_rewrites (.inline asked))
  have runs : (engine {} {}).RunsTo porter (gathered porter).retired :=
    runsTo_gathered (by decide +kernel) (by decide +kernel)
  exact ⟨blind, rewrites, by decide +kernel, (runsTo_rewritten {} {} blind rewrites runs).2 _
    (runsTo_gathered (by decide +kernel) (by decide +kernel))⟩

end Scene
end ProceduralScene
