import ProceduralScene.Interpreter.Engine
import ProceduralScene.Proofs.Evaluation.Related

/-! One advance is a turn of the first entry: the entry leaves the queue, its next node is
evaluated, and the entries that follow it are scheduled. What a turn does is said here once. -/
namespace ProceduralScene.Engine

open Evaluation

variable {α β : Type} (g : Engine α β)

/-- The scope in which a node of an entry is evaluated, once the entry has left the queue. -/
def turnScope (w : World α) (entry : Entry) (node : Transformation) : Scope α :=
  { (w.record (.before node entry.value)) with value := entry.value }

def evaluated (depth : Nat) (program : Program) (w : World α) (entry : Entry)
    (node : Transformation) : Except Fault Step × Scope α :=
  on ((g.evaluator program entry).step ((g.evaluator program entry).resolve depth) node)
    (turnScope w entry node)

def followers (entry : Entry) (rest : List Transformation) (step : Step) (after : Scope α) :
    List Entry :=
  step.successors { entry with value := after.value, pending := rest }

def scheduleAll (queue : Queue α) (entries : List Entry) : Queue α :=
  entries.foldl g.schedule queue

def settled (entry : Entry) (node : Transformation) (rest : List Transformation) (step : Step)
    (after : Scope α) : World α :=
  let entries := followers entry rest step after
  { after.toWorld.record (.after node (entries.map (·.value))) with
    queue := g.scheduleAll after.queue entries }

theorem advance_of_pop_none {w : World α} (drained : w.queue.pop = none) (depth : Nat)
    (program : Program) : g.advance depth program w = (.ok (), w) := by
  unfold advance
  rw [drained]

theorem advance_of_terminal {w : World α} {entry : Entry} {queue : Queue α}
    (popped : w.queue.pop = some (entry, queue)) (terminal : entry.pending = []) (depth : Nat)
    (program : Program) :
    g.advance depth program w = (.ok (), { w with queue := g.schedule queue entry }) := by
  unfold advance
  rw [popped]
  dsimp only
  rw [terminal]

theorem advance_of_pop {w : World α} {entry : Entry} {queue : Queue α}
    {node : Transformation} {rest : List Transformation}
    (popped : w.queue.pop = some (entry, queue)) (pending : entry.pending = node :: rest)
    (depth : Nat) (program : Program) :
    g.advance depth program w =
      match g.evaluated depth program { w with queue } entry node with
      | (.error fault, after) => (.error fault, after.toWorld)
      | (.ok step, after) => (.ok (), g.settled entry node rest step after) := by
  unfold advance
  rw [popped]
  dsimp only
  rw [pending]
  rfl

theorem scheduleAll_congr {β' : Type} {g : Engine α β} {g' : Engine α β'}
    (same : g.domain.progress = g'.domain.progress) (queue : Queue α) (entries : List Entry) :
    g.scheduleAll queue entries = g'.scheduleAll queue entries := by
  have one : g.schedule = g'.schedule := by
    funext queue entry
    simp only [schedule, same]
  simp only [scheduleAll, one]

theorem seed_congr {β' : Type} {g : Engine α β} {g' : Engine α β'}
    (create : g.domain.createValue = g'.domain.createValue)
    (progress : g.domain.progress = g'.domain.progress) (ordinal : Nat)
    (descriptions : List (String × Description)) (queue : Queue α) :
    g.seed ordinal descriptions queue = g'.seed ordinal descriptions queue := by
  induction descriptions generalizing ordinal queue with
  | nil => rfl
  | cons description rest ih =>
    obtain ⟨name, d⟩ := description
    have root : g.root ordinal name d = g'.root ordinal name d := by
      simp only [Engine.root, create]
    simp only [seed, root, schedule, progress, ih]

theorem evaluated_congr {β' : Type} {g : Engine α β} {g' : Engine α β'}
    (same : g.operations = g'.operations) (depth : Nat) (program : Program) (w : World α)
    (entry : Entry) (node : Transformation) :
    g.evaluated depth program w entry node = g'.evaluated depth program w entry node := by
  simp only [evaluated, evaluator, same]

variable {g}

theorem hasWork_of_running {span : Span} {steps : Nat} {q : Queue α}
    (running : ¬g.pauses span steps q = true) : q.hasWork = true := by
  cases work : q.hasWork with
  | true => rfl
  | false => simp [pauses, work] at running

theorem evaluated_meets {K : Transformation → Prop} {E : EvalError → Prop} {program : Program}
    {entry : Entry} (confined : (g.evaluator program entry).Confined K E) (node : Transformation)
    (kind : K node) (depth : Nat) (w : World α) :
    match (g.evaluated depth program w entry node).1 with
    | .ok step => ∀ next ∈ step.nodes, K next
    | .error (.error error) => E error
    | .error .outOfFuel => True := by
  have met := confined.meets_step kind (fun child member =>
    Evaluator.meets_resolve confined depth (confined.below node kind child member))
    (turnScope w entry node)
  rw [show on _ _ = g.evaluated depth program w entry node from rfl] at met
  revert met
  rcases (g.evaluated depth program w entry node).1 with (error | _) | step <;> exact id

theorem evaluated_agree_of_kind {R : Queue α → Queue α → Prop} {K : Transformation → Prop}
    {E : EvalError → Prop} {program : Program} {entry : Entry}
    (respects : (g.evaluator program entry).Respects K R)
    (confined : (g.evaluator program entry).Confined K E) {node : Transformation} (kind : K node)
    {w w' : World α} (related : R w.queue w'.queue) {depth depth' : Nat} (more : depth ≤ depth') :
    Agree R (g.evaluated depth program w entry node) (g.evaluated depth' program w' entry node) :=
  Evaluator.approximates_turn respects confined more kind (turnScope w entry node)
    (turnScope w' entry node) ⟨related, rfl⟩

variable (g) in
theorem evaluated_agree {R : Queue α → Queue α → Prop} (respects : g.operations.Respects R)
    {w w' : World α} (related : R w.queue w'.queue) {depth depth' : Nat} (more : depth ≤ depth')
    (program : Program) (entry : Entry) (node : Transformation) :
    Agree R (g.evaluated depth program w entry node) (g.evaluated depth' program w' entry node) :=
  evaluated_agree_of_kind (Evaluator.respects_of_registry respects _) (Evaluator.confined_trivial _)
    trivial related more

end ProceduralScene.Engine
