import Mathlib.Order.WellFoundedSet
import ProceduralScene.Proofs.Evaluation.Composition
import ProceduralScene.Proofs.Evaluation.Related

/-! Evaluations that come to an end. A node is finite, and where the references between nouns form
no cycle so is all that it expands to. As long as the operations push no further nodes nothing else
goes on, and some fuel suffices, whatever the node is evaluated on. -/
namespace ProceduralScene

variable {α β γ : Type}

def Operation.Quiet (operation : Operation α) : Prop :=
  ∀ call, Fulfils Step.Rests (fun _ => True) (operation.execute call).1

/-- The nodes that a step pushes. The children that it splits into are none of them. -/
def Step.pushed : Step → List Transformation
  | proceed _ push | fork _ push => push
  | parallel _ => []

def Operation.PushesNothing (operation : Operation α) : Prop :=
  ∀ call step, (operation.execute call).1 = .ok step → step.pushed = []

theorem Operation.Quiet.pushesNothing {operation : Operation α} (quiet : operation.Quiet) :
    operation.PushesNothing := by
  intro call step answered
  have rests := quiet call
  rw [answered] at rests
  cases step with
  | proceed payload push => exact rests
  | fork payloads push => exact rests
  | parallel children => rfl

namespace Transformation

def Names (allowed : String → Prop) (node : Transformation) : Prop :=
  ∀ inner ∈ node.nodes, ∀ name, inner.identifier? = some name → allowed name

theorem Names.child {allowed : String → Prop} {node child : Transformation}
    (names : node.Names allowed) (member : child ∈ node.children) : child.Names allowed :=
  fun inner below => names inner (mem_nodes_of_child member below)

end Transformation

namespace Program

variable (p : Program)

def Names (allowed : String → Prop) : Prop :=
  ∀ description noun found, p.noun? description noun = some found →
    found.transformation.Names allowed

def Refers (noun other : String × String) : Prop :=
  ∃ found astId, p.noun? noun.1 noun.2 = some found ∧
    .reference astId other.1 other.2 ∈ found.transformation.nodes

def Acyclic : Prop := ∀ noun, ¬Relation.TransGen p.Refers noun noun

def nouns : List ((String × String) × Noun) :=
  p.entries.flatMap fun d => d.2.nouns.entries.map fun noun => ((d.1, noun.1), noun.2)

theorem mem_nouns {description noun : String} {found : Noun}
    (known : p.noun? description noun = some found) : ((description, noun), found) ∈ p.nouns := by
  obtain ⟨d, described, named⟩ := Option.bind_eq_some_iff.mp known
  refine List.mem_flatMap.mpr ⟨(description, d), mem_of_lookupKey described, ?_⟩
  exact List.mem_map.mpr ⟨(noun, found), mem_of_lookupKey named, rfl⟩

theorem finite_nouns : {noun : String × String | p.noun? noun.1 noun.2 ≠ none}.Finite := by
  refine (List.finite_toSet (p.nouns.map Prod.fst)).subset ?_
  rintro ⟨description, noun⟩ known
  obtain ⟨found, known⟩ := Option.ne_none_iff_exists'.mp known
  exact List.mem_map.mpr ⟨_, p.mem_nouns known, rfl⟩

variable {p}

theorem Acyclic.induction (acyclic : p.Acyclic) {P : String × String → Prop}
    (step : ∀ noun, (∀ other, p.Refers noun other → P other) → P noun) (noun : String × String) :
    P noun := by
  have unknown (noun : String × String) (none : p.noun? noun.1 noun.2 = none) : P noun :=
    step noun fun other ⟨found, _, known, _⟩ => by cases none.symm.trans known
  have order : IsStrictOrder (String × String) fun other noun =>
      Relation.TransGen p.Refers noun other :=
    { irrefl := acyclic, trans := fun _ _ _ ab bc => bc.trans ab }
  have founded := p.finite_nouns.wellFoundedOn (r := fun other noun =>
    Relation.TransGen p.Refers noun other)
  by_cases known : p.noun? noun.1 noun.2 = none
  · exact unknown noun known
  · refine founded.induction (P := P) known fun noun _ ih => step noun fun other refers => ?_
    by_cases known' : p.noun? other.1 other.2 = none
    · exact unknown other known'
    · exact ih other known' (.single refers)

theorem acyclic_empty : Acyclic .empty := by
  intro noun cycle
  obtain ⟨other, ⟨found, _, known, _⟩, _⟩ := Relation.TransGen.head'_iff.mp cycle
  cases known

end Program

namespace Evaluation

/-- Whatever it is run on, the evaluation has fuel enough. -/
def Answers (x : Evaluation α β) : Prop := ∀ s, (on x s).1 ≠ .error .outOfFuel

theorem Answers.outcome {x : Evaluation α β} (answers : Answers x) (s : Scope α) :
    ∃ outcome : Except EvalError β, (on x s).1 = outcome.mapError Fault.error := by
  rcases ran : (on x s).1 with (error | _) | b
  · exact ⟨.error error, rfl⟩
  · exact absurd ran (answers s)
  · exact ⟨.ok b, rfl⟩

theorem Answers.bind_of_meets {P : β → Prop} {x : Evaluation α β} {f : β → Evaluation α γ}
    (first : Answers x) (met : Meets P (fun _ => True) x) (next : ∀ b, P b → Answers (f b)) :
    Answers (x >>= f) := by
  intro s
  have answered := first s
  have given := met s
  rw [on_bind]
  rcases ran : on x s with ⟨fault | b, after⟩ <;> rw [ran] at answered given
  · exact fun exhausted => answered (by cases exhausted; rfl)
  · exact next b given after

theorem compositional_answers : Compositional fun {β} (x : Evaluation α β) => Answers x where
  pure _ _ := nofun
  fail _ _ := nofun
  value _ := nofun
  record _ _ _ := nofun
  bind first next := first.bind_of_meets (meets_trivial _) fun b _ => next b

theorem exhausted_scratch {x : Evaluation α Unit} {s : Scope α} :
    (on (scratch x) s).1 = .error .outOfFuel ↔ (on x s).1 = .error .outOfFuel := by
  rw [on_scratch]
  cases (on x s).1 <;> simp [Except.map]

theorem Answers.scratch {x : Evaluation α Unit} (answers : Answers x) :
    Answers (Evaluation.scratch x) :=
  fun s exhausted => answers s (exhausted_scratch.mp exhausted)

end Evaluation

namespace Evaluator

open Evaluation

variable (ev : Evaluator α)

/-- Some fuel suffices to evaluate the node, whatever it is evaluated on. -/
def Finishes (node : Transformation) : Prop := ∃ fuel, Answers (ev.evaluate fuel node)

theorem answers_invoke (node : Transformation) (name : String) (parameters : List Payload) :
    Answers (ev.invoke node name parameters) := by
  intro s
  rw [on_invoke]
  cases ev.operations.get? name with
  | none => exact nofun
  | some operation =>
    dsimp only
    cases (operation.execute (ev.call node name operation parameters s)).1 <;> exact nofun

variable {ev}

theorem evaluate_eq_of_answers {fuel fuel' : Nat} (more : fuel ≤ fuel') {node : Transformation}
    (answers : Answers (ev.evaluate fuel node)) (s : Scope α) :
    (on (ev.evaluate fuel node) s).1 = (on (ev.evaluate fuel' node) s).1 ∧
      (on (ev.evaluate fuel node) s).2.Related Eq (on (ev.evaluate fuel' node) s).2 := by
  have respects := respects_of_registry ev.operations.respects_eq fun _ => True
  have approximates : Approximates _ (ev.evaluate fuel node) (ev.evaluate fuel' node) :=
    approximates_evaluate respects ev.confined_trivial more trivial
  exact (approximates s s ⟨rfl, rfl⟩).resolve_left (answers s)

theorem answers_mono {fuel fuel' : Nat} (more : fuel ≤ fuel') {node : Transformation}
    (answers : Answers (ev.evaluate fuel node)) : Answers (ev.evaluate fuel' node) := by
  intro s
  rw [← (evaluate_eq_of_answers more answers s).1]
  exact answers s

theorem Finishes.together {nodes : List Transformation}
    (each : ∀ node ∈ nodes, ev.Finishes node) :
    ∃ fuel, ∀ node ∈ nodes, Answers (ev.evaluate fuel node) := by
  induction nodes with
  | nil => exact ⟨0, fun node member => by cases member⟩
  | cons first rest ih =>
    obtain ⟨fuel, answers⟩ := each first List.mem_cons_self
    obtain ⟨fuel', answers'⟩ := ih fun node member => each node (List.mem_cons_of_mem _ member)
    refine ⟨max fuel fuel', List.forall_mem_cons.mpr ⟨?_, fun node member => ?_⟩⟩
    · exact answers_mono (Nat.le_max_left _ _) answers
    · exact answers_mono (Nat.le_max_right _ _) (answers' node member)

/-- A node whose operation pushes nothing goes on with its parts only, one level below it. -/
theorem answers_of_parts {node : Transformation} {fuel : Nat}
    (silent : ∀ name operation, node.identifier? = some name →
      ev.operations.get? name = some operation → operation.PushesNothing)
    (each : ∀ part ∈ ev.parts node, Answers (ev.evaluate fuel part)) :
    Answers (ev.evaluate (fuel + 1) node) := by
  have stepped : Answers (ev.step (ev.resolve fuel) node) :=
    compositional_answers.step (ev.answers_invoke node)
      (fun child member => (each child (mem_parts_of_child member)).scratch) fun _ _ _ => nofun
  have pushes : Meets (fun step => ∀ payload push, step = .proceed payload push →
      ∀ next ∈ push, next ∈ ev.parts node) (fun _ => True) (ev.step (ev.resolve fuel) node) := by
    refine meets_step (fun _ _ => trivial) (fun name operation named found parameters s => ?_) ?_
      fun _ _ => meets_trivial _
    · have nothing := silent name operation named found
        (ev.call node name operation parameters s)
      cases answered : (operation.execute (ev.call node name operation parameters s)).1 with
      | error error => trivial
      | ok step =>
        rintro payload push rfl
        rw [show push = [] from nothing _ answered]
        exact nofun
    · rintro step among payload push rfl
      exact among
  refine stepped.bind_of_meets pushes fun step next => ?_
  cases step with
  | proceed payload push =>
    refine compositional_answers.bind compositional_answers.value fun v => ?_
    refine compositional_answers.bind (fun _ => nofun) fun _ => ?_
    exact compositional_answers.forM fun pushed member =>
      each pushed (next payload push rfl pushed member)
  | fork payloads push => exact compositional_answers.fail _
  | parallel children => exact compositional_answers.fail _

theorem finishes_of_parts {node : Transformation} (quiet : ∀ name operation,
      node.identifier? = some name → ev.operations.get? name = some operation → operation.Quiet)
    (each : ∀ part ∈ ev.parts node, ev.Finishes part) : ev.Finishes node := by
  obtain ⟨fuel, answers⟩ := Finishes.together each
  exact ⟨fuel + 1, answers_of_parts
    (fun name operation named found => (quiet name operation named found).pushesNothing) answers⟩

section
variable {allowed : String → Prop} (quiet : ∀ name operation, allowed name →
  ev.operations.get? name = some operation → operation.Quiet)

include quiet

theorem finishes_of_nouns {node : Transformation} (names : node.Names allowed)
    (nouns : ∀ astId description noun found,
      .reference astId description noun ∈ node.nodes →
        ev.program.noun? description noun = some found → ev.Finishes found.transformation) :
    ev.Finishes node := by
  induction node using Transformation.induction_on_children with
  | step node ih =>
    refine finishes_of_parts (fun name operation named found =>
      quiet name operation (names node node.mem_nodes name named) found) fun part member => ?_
    have below (child : Transformation) (member : child ∈ node.children) : ev.Finishes child :=
      ih child member (names.child member) fun astId description noun found inside =>
        nouns astId description noun found (Transformation.mem_nodes_of_child member inside)
    cases node with
    | reference astId description noun =>
      obtain ⟨found, known, rfl⟩ := Option.map_eq_some_iff.mp (Option.mem_toList.mp member)
      exact nouns astId description noun found (Transformation.mem_nodes _) known
    | _ => exact below part member

/-- The main statement: without cycles and with operations that push nothing, every node is
evaluated to the end. -/
theorem finishes_of_acyclic (acyclic : ev.program.Acyclic) (program : ev.program.Names allowed)
    {node : Transformation} (names : node.Names allowed) : ev.Finishes node := by
  have noun (key : String × String) : ∀ found, ev.program.noun? key.1 key.2 = some found →
      ev.Finishes found.transformation := by
    induction key using acyclic.induction with
    | step key ih =>
      intro found known
      refine finishes_of_nouns quiet (program _ _ found known) ?_
      intro astId description noun other member known'
      exact ih (description, noun) ⟨found, astId, known, member⟩ other known'
  exact finishes_of_nouns quiet names fun _ description name found _ known =>
    noun (description, name) found known

end

theorem on_forM_last (f : Transformation → Evaluation α PUnit) (node : Transformation)
    (s : Scope α) : (on ([node].forM f) s).1 = (on (f node) s).1 := by
  rw [on_forM_cons]
  rcases on (f node) s with ⟨_ | _, after⟩ <;> rfl

/-- A node whose evaluation comes back to the node itself is never evaluated to the end. -/
theorem exhausted_of_again {node : Transformation} {Inv : Scope α → Prop}
    (again : ∀ fuel s, Inv s →
      (on (ev.evaluate (fuel + 1) node) s).1 = .error .outOfFuel ∨
        ∃ next, Inv next ∧
          (on (ev.evaluate (fuel + 1) node) s).1 = (on (ev.evaluate fuel node) next).1)
    (fuel : Nat) {s : Scope α} (inv : Inv s) :
    (on (ev.evaluate fuel node) s).1 = .error .outOfFuel := by
  induction fuel generalizing s with
  | zero => rfl
  | succ fuel ih =>
    rcases again fuel s inv with exhausted | ⟨next, inv', same⟩
    · exact exhausted
    · exact same.trans (ih inv')

end Evaluator
end ProceduralScene
