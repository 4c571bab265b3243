import Mathlib.Algebra.Order.BigOperators.Group.List
import Mathlib.Algebra.Order.Ring.Nat
import ProceduralScene.Counting
import ProceduralScene.Proofs.Evaluation.Termination
import ProceduralScene.Proofs.Scene.Retrying

/-! How deep an evaluation nests if nothing is pushed. It then goes from a node only to the nodes
below it and to the nouns that it refers to, and without cycles it enters no noun twice on one way
down. So no way is longer than there are nodes in the node and in the program. -/
namespace ProceduralScene

open Evaluation

variable {α β : Type}

namespace Transformation

theorem length_nodesOf_of_mem {child : Transformation} {children : List Transformation}
    (member : child ∈ children) : child.nodes.length ≤ (nodesOf children).length := by
  induction children with
  | nil => cases member
  | cons first rest ih =>
    rw [nodesOf, List.length_append]
    rcases List.mem_cons.mp member with rfl | member
    · omega
    · have later := ih member
      omega

theorem length_nodes_of_child {node child : Transformation} (member : child ∈ node.children) :
    child.nodes.length < node.nodes.length := by
  cases node with
  | sequential id children | parallel id children | operation id name children
  | switch id cases children | stochasticSwitch id probabilities children =>
    have among := length_nodesOf_of_mem (show child ∈ children from member)
    rw [nodes, List.length_cons]
    omega
  | unary id operator only | setVariable id name only =>
    rw [List.mem_singleton.mp member, nodes, List.length_cons]
    omega
  | binary id operator left right =>
    simp only [children, List.mem_cons, List.not_mem_nil, or_false] at member
    rw [nodes, List.length_append, List.length_cons]
    rcases member with rfl | rfl <;> omega
  | ifElse id condition whenTrue whenFalse =>
    simp only [children, List.mem_cons, List.not_mem_nil, or_false] at member
    rw [nodes, List.length_append, List.length_append, List.length_cons]
    rcases member with rfl | rfl | rfl <;> omega
  | _ => cases member

end Transformation

theorem add_sum_map_le {items : List β} {item : β} (member : item ∈ items) {f g : β → Nat}
    (smaller : ∀ b, f b ≤ g b) {more : Nat} (room : more + f item ≤ g item) :
    more + (items.map f).sum ≤ (items.map g).sum := by
  induction items with
  | nil => cases member
  | cons first rest ih =>
    rw [List.map_cons, List.map_cons, List.sum_cons, List.sum_cons]
    rcases List.mem_cons.mp member with rfl | member
    · have others := List.sum_le_sum fun b (_ : b ∈ rest) => smaller b
      omega
    · have others := ih member
      have here := smaller first
      omega

namespace Program

variable (p : Program)

def nodeCount : Nat := (p.nouns.map fun noun => noun.2.transformation.nodes.length).sum

open Classical in
/-- The number of nodes of the nouns that a noun comes to by references. -/
noncomputable def countBelow (key : String × String) : Nat :=
  (p.nouns.map fun noun =>
    if Relation.TransGen p.Refers key noun.1 then noun.2.transformation.nodes.length else 0).sum

variable {p}

theorem acyclic_of_rank (rank : String × String → Nat)
    (falls : ∀ noun ∈ p.nouns, ∀ astId description name,
      .reference astId description name ∈ noun.2.transformation.nodes →
        rank (description, name) < rank noun.1) : p.Acyclic := by
  intro noun cycle
  have lower : ∀ other, Relation.TransGen p.Refers noun other → rank other < rank noun := by
    intro other further
    have step {noun other : String × String} (refers : p.Refers noun other) :
        rank other < rank noun := by
      obtain ⟨found, astId, known, member⟩ := refers
      exact falls _ (p.mem_nouns known) astId other.1 other.2 member
    induction further with
    | single refers => exact step refers
    | tail _ refers ih => exact (step refers).trans ih
  exact absurd (lower noun cycle) (Nat.lt_irrefl _)

variable (acyclic : p.Acyclic)

include acyclic

theorem Acyclic.countBelow_le_of_refers {key other : String × String} (refers : p.Refers key other)
    {found : Noun} (known : p.noun? other.1 other.2 = some found) :
    found.transformation.nodes.length + p.countBelow other ≤ p.countBelow key := by
  refine add_sum_map_le (p.mem_nouns known) (fun noun => ?_) ?_
  · by_cases further : Relation.TransGen p.Refers other noun.1
    · rw [if_pos further, if_pos (.head refers further)]
    · rw [if_neg further]
      exact Nat.zero_le _
  · rw [if_neg (acyclic other), if_pos (.single refers)]
    exact Nat.le_refl _

theorem Acyclic.countBelow_le {key : String × String} {found : Noun}
    (known : p.noun? key.1 key.2 = some found) :
    found.transformation.nodes.length + p.countBelow key ≤ p.nodeCount := by
  refine add_sum_map_le (p.mem_nouns known) (fun noun => ?_) ?_
  · split
    · exact Nat.le_refl _
    · exact Nat.zero_le _
  · rw [if_neg (acyclic key)]
    exact Nat.le_refl _

end Program

namespace Evaluator

variable {ev : Evaluator α} (silent : ∀ name operation,
  ev.operations.get? name = some operation → operation.PushesNothing)

include silent

/-- A node nests no deeper than it has nodes, on top of the nouns that it refers to. -/
theorem answers_above_nouns {node : Transformation} {depth : Nat}
    (nouns : ∀ astId description noun found, .reference astId description noun ∈ node.nodes →
      ev.program.noun? description noun = some found →
        Answers (ev.evaluate depth found.transformation)) :
    Answers (ev.evaluate (node.nodes.length + depth) node) := by
  induction node using Transformation.induction_on_children with
  | step node ih =>
    have nonempty : 0 < node.nodes.length := List.length_pos_of_mem node.mem_nodes
    obtain ⟨levels, count⟩ : ∃ levels, node.nodes.length = levels + 1 :=
      ⟨node.nodes.length - 1, by omega⟩
    rw [show node.nodes.length + depth = levels + depth + 1 by omega]
    refine answers_of_parts (fun name operation _ => silent name operation) fun part member => ?_
    have below (child : Transformation) (member : child ∈ node.children) :
        Answers (ev.evaluate (levels + depth) child) := by
      have fewer := Transformation.length_nodes_of_child member
      have answers : Answers (ev.evaluate (child.nodes.length + depth) child) :=
        ih child member fun astId description noun found inside known =>
          nouns astId description noun found (Transformation.mem_nodes_of_child member inside) known
      exact answers_mono (by omega) answers
    cases node with
    | reference astId description noun =>
      obtain ⟨found, known, rfl⟩ := Option.map_eq_some_iff.mp (Option.mem_toList.mp member)
      have answers : Answers (ev.evaluate depth found.transformation) :=
        nouns astId description noun found (Transformation.mem_nodes _) known
      exact answers_mono (by omega) answers
    | _ => exact below part member

variable (acyclic : ev.program.Acyclic)

include acyclic

theorem answers_noun (key : String × String) {found : Noun}
    (known : ev.program.noun? key.1 key.2 = some found) :
    Answers (ev.evaluate (found.transformation.nodes.length + ev.program.countBelow key)
      found.transformation) := by
  induction key using acyclic.induction generalizing found with
  | step key ih =>
    refine answers_above_nouns silent fun astId description noun other member known' => ?_
    have refers : ev.program.Refers key (description, noun) := ⟨found, astId, known, member⟩
    exact answers_mono (acyclic.countBelow_le_of_refers refers known') (ih _ refers known')

/-- Whatever the operations, the value and the queue are, no evaluation nests deeper than there are
nodes in the node and in the program. It comes to the same then with any greater depth. -/
theorem evaluate_within_nodes (node : Transformation) (s : Scope α) :
    ∃ (outcome : Except EvalError Unit) (queue : Queue α) (value : Value),
      ∀ depth, node.nodes.length + ev.program.nodeCount ≤ depth →
        (on (ev.evaluate depth node) s).1 = outcome.mapError Fault.error ∧
          (on (ev.evaluate depth node) s).2.queue = queue ∧
          (on (ev.evaluate depth node) s).2.value = value := by
  have answers : Answers (ev.evaluate (node.nodes.length + ev.program.nodeCount) node) := by
    refine answers_above_nouns silent fun astId description noun found _ known => ?_
    have below : found.transformation.nodes.length + ev.program.countBelow (description, noun) ≤
        ev.program.nodeCount := acyclic.countBelow_le known
    exact answers_mono below (answers_noun silent acyclic (description, noun) known)
  let after := (on (ev.evaluate (node.nodes.length + ev.program.nodeCount) node) s).2
  obtain ⟨outcome, came⟩ := answers.outcome s
  refine ⟨outcome, after.queue, after.value, fun depth enough => ?_⟩
  obtain ⟨same, related⟩ := evaluate_eq_of_answers enough answers s
  exact ⟨same.symm.trans came, related.queue.symm, related.value.symm⟩

end Evaluator

namespace Counting

theorem fulfils_of_answer {γ : Type} (x : Except EvalError γ) {f : γ → Step}
    (rests : ∀ c, (f c).Rests) : Fulfils Step.Rests (fun _ => True) (f <$> x) := by
  cases x with
  | ok c => exact rests c
  | error error => trivial

theorem pushesNothing {name : String} {operation : Operation Nat}
    (found : operations.get? name = some operation) : operation.PushesNothing := by
  have each : ∀ entry ∈ operations.entries, entry.2.Quiet := by
    refine Sorted.forall_mem_ofList ?_
    simp only [List.forall_mem_cons]
    refine ⟨fun call => fulfils_of_answer (call.number 0) fun _ => rfl,
      fun call => fulfils_of_answer (call.number 0) fun _ => rfl, fun call => ?finished, by simp⟩
    show Fulfils Step.Rests (fun _ => True) (finished call).1
    unfold finished
    split
    · trivial
    · rfl
  exact (each _ (Sorted.mem_of_get? found)).pushesNothing

end Counting

namespace Scene

open Paving

theorem pathwayOperations_pushNothing {name : String} {operation : Operation Network}
    (found : pathwayOperations.get? name = some operation) : operation.PushesNothing := by
  have each : ∀ entry ∈ pathwayOperations.entries, entry.2.PushesNothing := by
    refine Sorted.forall_mem_ofList ?_
    simp only [List.forall_mem_cons]
    exact ⟨(Operation.Quiet.of_fulfils fulfils_pathwayFrom).pushesNothing,
      (Operation.Quiet.of_fulfils fulfils_pathwayTo).pushesNothing, by simp⟩
  exact each _ (Sorted.mem_of_get? found)

def leg (astId : String) (x : Float) : Transformation :=
  .operation astId "pathwayTo"
    [.literal "x" (.number x), .literal "y" (.number 0), .literal "size" (.number 2)]

def winding : Program := .ofList [("road", {
  initialVariables := .empty
  nouns := .ofList [
    ("road", ⟨"road", .sequential "all" [leg "start" 0, .reference "near" "road" "bend",
      .reference "far" "road" "bend"]⟩),
    ("bend", ⟨"bend", leg "on" 5⟩)]
  root := "road" })]

theorem acyclic_winding : winding.Acyclic := by
  refine Program.acyclic_of_rank (fun noun => if noun.2 = "bend" then 0 else 1) ?_
  intro noun member astId description name referring
  obtain ⟨d, described, member⟩ := List.mem_flatMap.mp member
  obtain ⟨noun, named, rfl⟩ := List.mem_map.mp member
  obtain rfl := List.mem_singleton.mp (Keyed.mem_of_mem_ofList described)
  have written := Keyed.mem_of_mem_ofList named
  simp only [List.mem_cons, List.not_mem_nil, or_false] at written
  rcases written with rfl | rfl
  · have target : (description, name) = ("road", "bend") := by
      simp only [leg, Transformation.nodes, Transformation.nodesOf] at referring
      grind
    rw [target]
    decide
  · simp [leg, Transformation.nodes, Transformation.nodesOf] at referring

def roadLayer : Evaluator Network := ⟨winding, pathwayOperations, "0", "0"⟩

def layRoad : Transformation := .reference "go" "road" "road"

def unlaid : Scope Network := ⟨⟨.empty, none⟩, ⟨.pathway ⟨[], "street"⟩, .empty⟩⟩

theorem road_within_nodes :
    layRoad.nodes.length + winding.nodeCount = 12 ∧
      (∀ name operation, pathwayOperations.get? name = some operation →
        operation.PushesNothing) ∧
      winding.Acyclic ∧
      (∃ (outcome : Except EvalError Unit) (queue : Queue Network) (value : Value),
        ∀ depth, 12 ≤ depth →
          (on (roadLayer.evaluate depth layRoad) unlaid).1 = outcome.mapError Fault.error ∧
            (on (roadLayer.evaluate depth layRoad) unlaid).2.queue = queue ∧
            (on (roadLayer.evaluate depth layRoad) unlaid).2.value = value) ∧
      ((on (roadLayer.evaluate 12 layRoad) unlaid).2.value.payload.pathway?.map
        (·.points.map (·.x))) == some [0, 5, 5] := by
  have silent (name : String) (operation : Operation Network)
      (found : roadLayer.operations.get? name = some operation) : operation.PushesNothing :=
    pathwayOperations_pushNothing found
  have count : layRoad.nodes.length + winding.nodeCount = 12 := by decide +kernel
  refine ⟨count, silent, acyclic_winding, ?_, by decide +kernel⟩
  have laid := Evaluator.evaluate_within_nodes silent acyclic_winding layRoad unlaid
  rwa [show roadLayer.program = winding from rfl, count] at laid

end Scene
end ProceduralScene
