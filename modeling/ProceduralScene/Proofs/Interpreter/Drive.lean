import ProceduralScene.Proofs.Interpreter.Turn

/-! The scheduler against the recursive evaluator. A single entry that is driven to its end goes
through the nodes that evaluation in place goes through: what a node pushes stands in front of
the remaining nodes, so it is finished before them. Between two nodes the entry is back in the
queue, and no operation can tell, since it is taken out again before the next one is called. -/
namespace ProceduralScene

open Evaluation

namespace Queue

variable {α : Type}

structure Quiet (results : Array Entry) (q r : Queue α) : Prop where
  slots : q.slots = []
  slots' : r.slots = []
  retired : q.results = results
  retired' : r.results = results
  cache : q.cache = r.cache

theorem quiet_self {q : Queue α} (idle : q.slots = []) : Quiet q.results q q :=
  ⟨idle, idle, rfl, rfl, rfl⟩

theorem Quiet.cached {β : Type} [Holds α β] {results : Array Entry} {q r : Queue α}
    (quiet : Quiet results q r) (key : String) (accepts : Entry → Bool)
    (build : List Entry → Option β) :
    (q.cached key accepts build).1 = (r.cached key accepts build).1 ∧
      Quiet results (q.cached key accepts build).2 (r.cached key accepts build).2 := by
  obtain ⟨slots, slots', retired, retired', cache⟩ := quiet
  unfold Queue.cached Queue.rebuild
  rw [cache, retired, retired']
  split
  · exact ⟨rfl, slots, slots', rfl, rfl, rfl⟩
  · split
    · exact ⟨rfl, slots, slots', rfl, rfl, rfl⟩
    · exact ⟨rfl, slots, slots', rfl, rfl, rfl⟩

theorem Quiet.pop_push {results : Array Entry} {q r : Queue α} (quiet : Quiet results q r)
    {entry : Entry} (working : entry.pending ≠ []) (progress : Progress) :
    ∃ rest, (r.push entry progress).pop = some (entry, rest) ∧ Quiet results q rest := by
  refine ⟨{ r with slots := [], sequence := r.sequence + 1 }, ?_, ?_⟩
  · rw [Queue.push, if_neg (by simpa only [Entry.isTerminal, List.isEmpty_iff] using working),
      quiet.slots']
    rfl
  · exact { quiet with slots' := rfl }

end Queue

namespace Engine

variable {α β : Type} (g : Engine α β)

def drive (depth : Nat) (program : Program) : Nat → World α → Except Fault Unit × World α
  | 0, w => (.error .outOfFuel, w)
  | fuel + 1, w =>
    if w.queue.hasWork then
      match g.advance depth program w with
      | (.error fault, w) => (.error fault, w)
      | (.ok (), w) => drive depth program fuel w
    else (.ok (), w)

def Leads (depth : Nat) (program : Program) (w w' : World α) : Prop :=
  ∃ turns, ∀ more, g.drive depth program (turns + more) w = g.drive depth program more w'

variable {g} {depth : Nat} {program : Program}

theorem Leads.refl (w : World α) : g.Leads depth program w w :=
  ⟨0, fun more => by rw [Nat.zero_add]⟩

theorem Leads.trans {w₁ w₂ w₃ : World α} (first : g.Leads depth program w₁ w₂)
    (second : g.Leads depth program w₂ w₃) : g.Leads depth program w₁ w₃ := by
  obtain ⟨turns, first⟩ := first
  obtain ⟨turns', second⟩ := second
  exact ⟨turns + turns', fun more => by rw [Nat.add_assoc, first, second]⟩

theorem leads_of_advance {w w' : World α} (work : w.queue.hasWork = true)
    (advanced : g.advance depth program w = (.ok (), w')) : g.Leads depth program w w' := by
  refine ⟨1, fun more => ?_⟩
  rw [Nat.add_comm, drive, if_pos work, advanced]

theorem Leads.finish {w w' : World α} (leads : g.Leads depth program w w')
    (idle : w'.queue.hasWork = false) :
    ∃ turns, ∀ more, g.drive depth program (turns + more) w = (.ok (), w') := by
  obtain ⟨turns, leads⟩ := leads
  refine ⟨turns + 1, fun more => ?_⟩
  rw [Nat.add_assoc, leads, Nat.add_comm, drive, if_neg (by rw [idle]; exact Bool.false_ne_true)]

theorem Leads.halt {w w' stopped : World α} {fault : Fault} (leads : g.Leads depth program w w')
    (work : w'.queue.hasWork = true)
    (failed : g.advance depth program w' = (.error fault, stopped)) :
    ∃ turns, ∀ more, g.drive depth program (turns + more) w = (.error fault, stopped) := by
  obtain ⟨turns, leads⟩ := leads
  refine ⟨turns + 1, fun more => ?_⟩
  rw [Nat.add_assoc, leads, Nat.add_comm, drive, if_pos work, failed]

variable (g) in
/-- One entry is all that a world works on; a scope of the evaluator has the same value and
sees the same queue. -/
def Works (results : Array Entry) (id seed : String) (pending : List Transformation)
    (w : World α) (s : Scope α) : Prop :=
  ∃ q, w.queue = g.schedule q ⟨id, s.value, seed, pending⟩ ∧ Queue.Quiet results s.queue q

theorem Works.hasWork {results : Array Entry} {id seed : String} {node : Transformation}
    {rest : List Transformation} {w : World α} {s : Scope α}
    (works : g.Works results id seed (node :: rest) w s) : w.queue.hasWork = true := by
  obtain ⟨q, queue, quiet⟩ := works
  rw [queue, schedule, Queue.push, if_neg (by simp [Entry.isTerminal]), quiet.slots']
  rfl

variable (g) in
/-- What an evaluation in place says about driving a world on. -/
def Follows (depth : Nat) (program : Program) (results : Array Entry) (id seed : String)
    (rest : List Transformation) (w : World α) : Except Fault Unit × Scope α → Prop
  | (.ok (), after) => ∃ w', g.Leads depth program w w' ∧ g.Works results id seed rest w' after
  | (.error .outOfFuel, _) => True
  | (.error (.error error), _) =>
    (∀ astId, error ≠ .forkInSynchronousEvaluation astId) →
      ∃ w' stopped, g.Leads depth program w w' ∧ w'.queue.hasWork = true ∧
        g.advance depth program w' = (.error (.error error), stopped)

theorem Follows.of_leads {results : Array Entry} {id seed : String}
    {rest : List Transformation} {w w' : World α} {answer : Except Fault Unit × Scope α}
    (leads : g.Leads depth program w w')
    (follows : g.Follows depth program results id seed rest w' answer) :
    g.Follows depth program results id seed rest w answer := by
  rcases answer with ⟨(error | _) | _, after⟩
  · intro notFork
    obtain ⟨last, stopped, later, failed⟩ := follows notFork
    exact ⟨last, stopped, leads.trans later, failed⟩
  · trivial
  · obtain ⟨last, later, works⟩ := follows
    exact ⟨last, leads.trans later, works⟩

theorem follows_forM {results : Array Entry} {id seed : String} {fuel : Nat}
    (each : ∀ {node rest w s}, g.Works results id seed (node :: rest) w s →
      g.Follows depth program results id seed rest w
        (on (Evaluator.evaluate ⟨program, g.operations, id, seed⟩ fuel node) s))
    (nodes : List Transformation) {rest : List Transformation} {w : World α} {s : Scope α}
    (works : g.Works results id seed (nodes ++ rest) w s) :
    g.Follows depth program results id seed rest w
      (on (nodes.forM (Evaluator.evaluate ⟨program, g.operations, id, seed⟩ fuel)) s) := by
  induction nodes generalizing w s with
  | nil => exact ⟨w, .refl w, works⟩
  | cons node nodes ih =>
    have first := each works
    rw [on_forM_cons]
    generalize on (Evaluator.evaluate ⟨program, g.operations, id, seed⟩ fuel node) s = answer
      at first ⊢
    rcases answer with ⟨(error | _) | _, after⟩
    · exact first
    · trivial
    · obtain ⟨w', leads, works'⟩ := first
      exact (ih works').of_leads leads

section
variable {results : Array Entry} (respects : g.operations.Respects (Queue.Quiet results))
  {id seed : String}

include respects

theorem Works.advance (program : Program) {fuel : Nat} (enough : fuel ≤ depth)
    {node : Transformation} {rest : List Transformation} {w : World α} {s : Scope α}
    (works : g.Works results id seed (node :: rest) w s) :
    let ev : Evaluator α := ⟨program, g.operations, id, seed⟩
    match on (ev.step (ev.resolve fuel) node) s with
    | (.error .outOfFuel, _) => True
    | (.error (.error error), _) =>
      ∃ w', g.advance depth program w = (.error (.error error), w')
    | (.ok (.proceed payload push), after) =>
      ∃ w', g.advance depth program w = (.ok (), w') ∧
        g.Works results id seed (push ++ rest) w'
          { after with
            value := { after.value with payload := payload.getD after.value.payload } }
    | (.ok _, _) => True := by
  intro ev
  obtain ⟨q, queue, quiet⟩ := works
  have pending : (⟨id, s.value, seed, node :: rest⟩ : Entry).pending ≠ [] := List.cons_ne_nil _ _
  -- alone in the queue, the entry is the one that leaves it
  obtain ⟨q', popped, quiet'⟩ := quiet.pop_push pending (g.domain.progress s.value.payload)
  rw [show q.push _ (g.domain.progress s.value.payload) = w.queue from queue.symm] at popped
  rw [g.advance_of_pop popped rfl]
  have agree : Agree (Queue.Quiet results) (on (ev.step (ev.resolve fuel) node) s)
      (g.evaluated depth program { w with queue := q' } ⟨id, s.value, seed, node :: rest⟩ node) :=
    Evaluator.approximates_turn (Evaluator.respects_of_registry respects _)
      ev.confined_trivial enough trivial s (turnScope { w with queue := q' } _ node) ⟨quiet', rfl⟩
  generalize on (ev.step (ev.resolve fuel) node) s = answer at agree ⊢
  generalize g.evaluated depth program { w with queue := q' } ⟨id, s.value, seed, node :: rest⟩
    node = answer' at agree ⊢
  obtain ⟨outcome, after⟩ := answer
  obtain ⟨outcome', after'⟩ := answer'
  rcases agree with exhausted | ⟨same, related⟩
  · dsimp only at exhausted
    subst exhausted
    trivial
  · dsimp only at same related
    subst same
    rcases outcome with (error | _) | step
    · exact ⟨_, rfl⟩
    · trivial
    · cases step with
      | proceed payload push =>
        refine ⟨_, rfl, after'.queue, ?_, related.queue⟩
        simp only [settled, followers, Step.successors, scheduleAll, related.value]
        rfl
      | fork payloads push => trivial
      | parallel children => trivial

/-- Driving an entry through a node does what evaluating the node in place does. -/
theorem follows_evaluate (program : Program) {fuel : Nat} (enough : fuel ≤ depth)
    {node : Transformation} {rest : List Transformation} {w : World α} {s : Scope α}
    (works : g.Works results id seed (node :: rest) w s) :
    g.Follows depth program results id seed rest w
      (on (Evaluator.evaluate ⟨program, g.operations, id, seed⟩ fuel node) s) := by
  -- for any remaining nodes: those that a node pushes are driven in front of them
  induction fuel generalizing node rest w s with
  | zero => trivial
  | succ fuel ih =>
    have work := works.hasWork
    have turn := works.advance respects program (Nat.le_of_succ_le enough)
    rw [Evaluator.on_evaluate_succ]
    dsimp only at turn
    generalize on (Evaluator.step ⟨program, g.operations, id, seed⟩
      (Evaluator.resolve ⟨program, g.operations, id, seed⟩ fuel) node) s = answer at turn ⊢
    rcases answer with ⟨(error | _) | step, after⟩
    · obtain ⟨stopped, failed⟩ := turn
      exact fun _ => ⟨w, stopped, .refl w, work, failed⟩
    · trivial
    · cases step with
      | proceed payload push =>
        obtain ⟨w', advanced, works'⟩ := turn
        -- one turn leads to the pushed nodes, and the induction drives each of them
        exact (follows_forM (fun inner => ih (Nat.le_of_succ_le enough) inner) push
          works').of_leads (leads_of_advance work advanced)
      | fork payloads push => exact fun notFork => absurd rfl (notFork node.astId)
      | parallel children => exact fun notFork => absurd rfl (notFork node.astId)

end
end Engine
end ProceduralScene
