import ProceduralScene.Proofs.Evaluation.Recording
import ProceduralScene.Proofs.Interpreter.Course

/-! What an observer sees of a slice. Every turn shows one block of events: the entry's value before
its next node is evaluated, the choices made meanwhile, and the values that have followed. A turn
that fails shows the beginning of a block, and the slice is over. For this each turn has to come to
a node, so nothing in flight may be without one; whatever is put into a queue sees to that. -/
namespace ProceduralScene

open Evaluation

variable {α β : Type}

namespace Queue

variable {q r : Queue α}

def Pending (q : Queue α) : Prop := ∀ entry ∈ q.inFlight, entry.pending ≠ []

theorem pending_empty : (empty : Queue α).Pending := fun _ member => nomatch member

theorem Pending.of_uncached (pending : q.Pending) (same : r.uncached = q.uncached) :
    r.Pending := by
  rw [Pending, inFlight, slots_of_uncached same]
  exact pending

theorem Pending.push (pending : q.Pending) (entry : Entry) (progress : Progress) :
    (q.push entry progress).Pending := by
  unfold Queue.push
  split
  · exact pending
  next unfinished =>
    intro other waits
    have among := ((perm_insertSlot _ q.slots).map Slot.entry).mem_iff.mp waits
    rcases List.mem_cons.mp among with rfl | waits
    · simpa [Entry.isTerminal] using unfinished
    · exact pending other waits

theorem Pending.of_pop (pending : q.Pending) {entry : Entry} (popped : q.pop = some (entry, r)) :
    entry.pending ≠ [] ∧ r.Pending := by
  unfold pop at popped
  split at popped
  · cases popped
  next slots =>
    cases popped
    rw [Pending, inFlight, slots] at pending
    exact ⟨pending _ List.mem_cons_self,
      fun other waits => pending other (List.mem_cons_of_mem _ waits)⟩

theorem pop_of_hasWork (work : q.hasWork = true) : ∃ entry rest, q.pop = some (entry, rest) := by
  unfold pop
  cases slots : q.slots with
  | nil =>
    rw [hasWork, slots] at work
    cases work
  | cons slot rest => exact ⟨_, _, rfl⟩

end Queue

namespace Engine

variable (g : Engine α β)

structure Tidy : Prop where
  operations : g.operations.Respects fun q r => q = r ∧ q.Pending
  publishes : ∀ q, q.Pending → (g.domain.publish q).2.Pending

variable {g}

theorem ReadsOnly.tidy (reads : g.ReadsOnly) : g.Tidy where
  operations name operation found call q r := by
    rintro ⟨rfl, pending⟩
    have kept := (reads.steady q.uncached name operation found call q q ⟨rfl, rfl⟩).2.2
    exact ⟨rfl, rfl, pending.of_uncached kept⟩
  publishes q pending := pending.of_uncached (reads.publishes q)

theorem pending_scheduleAll {q : Queue α} (pending : q.Pending) (entries : List Entry) :
    (g.scheduleAll q entries).Pending := by
  induction entries generalizing q with
  | nil => exact pending
  | cons entry rest ih => exact ih (pending.push entry _)

theorem pending_seed {q : Queue α} (pending : q.Pending) (ordinal : Nat)
    (descriptions : List (String × Description)) : (g.seed ordinal descriptions q).2.Pending := by
  induction descriptions generalizing ordinal q with
  | nil => exact pending
  | cons description rest ih =>
    rw [seed]
    split
    · exact pending
    · exact ih pending _
    · exact ih (pending.push _ _) _

theorem pending_evaluated (tidy : g.Tidy) {depth : Nat} {program : Program} {w : World α}
    (pending : w.queue.Pending) {entry : Entry} {node : Transformation}
    {outcome : Except Fault Step} {after : Scope α}
    (evaluated : g.evaluated depth program w entry node = (outcome, after))
    (answered : outcome ≠ .error .outOfFuel) : after.queue.Pending := by
  have same : w.queue = w.queue ∧ w.queue.Pending := ⟨rfl, pending⟩
  have agree := g.evaluated_agree tidy.operations same (Nat.le_refl depth) program entry node
  rw [evaluated] at agree
  rcases agree with exhausted | ⟨_, related⟩
  · exact absurd exhausted answered
  · exact related.queue.2

end Engine

def Event.isAfter : Event → Bool
  | .after _ _ => true
  | _ => false

theorem Event.Chosen.isAfter {event : Event} (chosen : event.Chosen) : event.isAfter = false := by
  cases event with
  | after node values => exact chosen.elim
  | _ => rfl

namespace Engine

section
variable (g : Engine α β) (depth : Nat) (program : Program)

/-- The next node of the first entry is evaluated. The trace goes on with the node and the value of
the entry at that time, and with the choices of the switches that are evaluated along with it. -/
structure Opens (w : World α) (entry : Entry) (node : Transformation)
    (nodes : List Transformation) (choices : List Event) (outcome : Except Fault Step)
    (after : Scope α) : Prop where
  evaluated : ∃ rest, w.queue.pop = some (entry, rest) ∧
    g.evaluated depth program { w with queue := rest } entry node = (outcome, after)
  pending : entry.pending = node :: nodes
  chosen : ∀ event ∈ choices, event.Chosen
  recorded : w.Extends after.toWorld (.before node entry.value :: choices)

/-- A turn with its block. The last event has the values of exactly the entries that follow. -/
inductive Completes : List Event → World α → World α → Prop where
  | intro {w : World α} {entry : Entry} {node : Transformation} {nodes : List Transformation}
    {choices : List Event} {step : Step} {after : Scope α}
    (opens : g.Opens depth program w entry node nodes choices (.ok step) after) :
    Completes (.before node entry.value :: choices ++
        [.after node ((followers entry nodes step after).map (·.value))])
      w (g.settled entry node nodes step after)

example (entry : Entry) (nodes push : List Transformation) (after : Scope α) :
    (followers entry nodes (.fork [] push) after).map (·.value) = [] := rfl

inductive Breaks : EvalError → List Event → World α → World α → Prop where
  | intro {w : World α} {entry : Entry} {node : Transformation} {nodes : List Transformation}
    {choices : List Event} {error : EvalError} {after : Scope α}
    (opens : g.Opens depth program w entry node nodes choices (.error (.error error)) after) :
    Breaks error (.before node entry.value :: choices) w after.toWorld

inductive CompletesAll : List (List Event) → World α → World α → Prop where
  | none (w : World α) : CompletesAll [] w w
  | next {w mid last : World α} {block : List Event} {blocks : List (List Event)}
    (first : g.Completes depth program block w mid) (later : CompletesAll blocks mid last) :
    CompletesAll (block :: blocks) w last

/-- The events of a slice: a block for every step, and the beginning of one more if it fails. -/
inductive Shows : Except EvalError Nat → List Event → World α → World α → Prop where
  | ended {w last : World α} {blocks : List (List Event)}
    (each : g.CompletesAll depth program blocks w last) :
    Shows (.ok blocks.length) blocks.flatten w last
  | broken {w mid last : World α} {blocks : List (List Event)} {error : EvalError}
    {events : List Event} (each : g.CompletesAll depth program blocks w mid)
    (breaks : g.Breaks depth program error events mid last) :
    Shows (.error error) (blocks.flatten ++ events) w last

end

variable {g : Engine α β} {depth : Nat} {program : Program} {w last : World α}

theorem opens_of_evaluated {entry : Entry} {rest : Queue α} {node : Transformation}
    {nodes : List Transformation} {outcome : Except Fault Step} {after : Scope α}
    (popped : w.queue.pop = some (entry, rest)) (pending : entry.pending = node :: nodes)
    (evaluated : g.evaluated depth program { w with queue := rest } entry node = (outcome, after)) :
    ∃ choices, g.Opens depth program w entry node nodes choices outcome after := by
  obtain ⟨choices, chosen, extended⟩ := (g.evaluator program entry).recordsChoices_step depth node
    (turnScope { w with queue := rest } entry node)
  rw [show on _ _ = g.evaluated depth program { w with queue := rest } entry node from rfl,
    evaluated] at extended
  have before := World.extends_record ({ w with queue := rest } : World α)
    (.before node entry.value)
  exact ⟨choices, ⟨rest, popped, evaluated⟩, pending, chosen, before.trans extended⟩

theorem advance_shows (tidy : g.Tidy) (depth : Nat) (program : Program)
    (pending : w.queue.Pending) (work : w.queue.hasWork = true) :
    match g.advance depth program w with
    | (.ok (), next) => next.queue.Pending ∧ ∃ block, g.Completes depth program block w next
    | (.error (.error error), next) =>
      next.queue.Pending ∧ ∃ events, g.Breaks depth program error events w next
    | (.error .outOfFuel, _) => True := by
  obtain ⟨entry, rest, popped⟩ := Queue.pop_of_hasWork work
  obtain ⟨unfinished, left⟩ := pending.of_pop popped
  obtain ⟨node, nodes, nonempty⟩ := List.exists_cons_of_ne_nil unfinished
  rw [g.advance_of_pop popped nonempty]
  rcases evaluated : g.evaluated depth program { w with queue := rest } entry node with
    ⟨(error | _) | step, after⟩
  · obtain ⟨choices, opens⟩ := opens_of_evaluated popped nonempty evaluated
    exact ⟨pending_evaluated tidy left evaluated nofun, _, .intro opens⟩
  · trivial
  · obtain ⟨choices, opens⟩ := opens_of_evaluated popped nonempty evaluated
    exact ⟨pending_scheduleAll (pending_evaluated tidy left evaluated nofun) _, _, .intro opens⟩

/-- A slice shows as many blocks as it counts steps, unless it fails. -/
theorem slice_shows (tidy : g.Tidy) (depth : Nat) (program : Program) (span : Span)
    (fuel steps : Nat) (pending : w.queue.Pending) :
    match g.slice depth program span fuel steps w with
    | (.ok k, last) => last.queue.Pending ∧ ∃ blocks, k = steps + blocks.length ∧
      g.CompletesAll depth program blocks w last
    | (.error (.error error), last) => last.queue.Pending ∧ ∃ blocks mid events,
      g.CompletesAll depth program blocks w mid ∧ g.Breaks depth program error events mid last
    | (.error .outOfFuel, _) => True := by
  induction fuel generalizing steps w with
  | zero => trivial
  | succ fuel ih =>
    unfold slice
    by_cases paused : g.pauses span steps w.queue = true
    · rw [if_pos paused]
      exact ⟨pending, [], rfl, .none w⟩
    · rw [if_neg paused]
      have work : w.queue.hasWork = true := hasWork_of_running paused
      have shown := advance_shows tidy depth program pending work
      rcases advanced : g.advance depth program w with ⟨(error | _) | _, next⟩ <;>
        rw [advanced] at shown
      · obtain ⟨pending', events, breaks⟩ := shown
        exact ⟨pending', [], w, events, .none w, breaks⟩
      · trivial
      · obtain ⟨pending', block, first⟩ := shown
        have later := ih (steps + 1) pending'
        dsimp only
        rcases sliced : g.slice depth program span fuel (steps + 1) next with
          ⟨(error | _) | k, last⟩ <;> rw [sliced] at later
        · obtain ⟨settled, blocks, mid, events, each, breaks⟩ := later
          exact ⟨settled, block :: blocks, mid, events, .next first each, breaks⟩
        · trivial
        · obtain ⟨settled, blocks, count, each⟩ := later
          refine ⟨settled, block :: blocks, ?_, .next first each⟩
          rw [count, List.length_cons]
          omega

section
variable {next : World α} {block events : List Event} {blocks : List (List Event)}
  {error : EvalError}

theorem Opens.countP {entry : Entry} {node : Transformation} {nodes : List Transformation}
    {choices : List Event} {outcome : Except Fault Step} {after : Scope α}
    (opens : g.Opens depth program w entry node nodes choices outcome after) :
    (Event.before node entry.value :: choices).countP Event.isAfter = 0 := by
  refine List.countP_eq_zero.mpr fun event member => ?_
  rcases List.mem_cons.mp member with rfl | member
  · exact Bool.false_ne_true
  · rw [(opens.chosen event member).isAfter]
    exact Bool.false_ne_true

theorem Completes.recorded (completes : g.Completes depth program block w next) :
    w.Extends next block := by
  cases completes with
  | intro opens => exact opens.recorded.trans (World.extends_record _ _)

theorem Completes.countP (completes : g.Completes depth program block w next) :
    block.countP Event.isAfter = 1 := by
  cases completes with
  | intro opens =>
    rw [List.countP_append, opens.countP]
    rfl

theorem CompletesAll.recorded (each : g.CompletesAll depth program blocks w last) :
    w.Extends last blocks.flatten := by
  induction each with
  | none w => exact .refl w
  | next first _ ih => exact first.recorded.trans ih

theorem CompletesAll.countP (each : g.CompletesAll depth program blocks w last) :
    blocks.flatten.countP Event.isAfter = blocks.length := by
  induction each with
  | none w => rfl
  | next first _ ih =>
    rw [List.flatten_cons, List.countP_append, first.countP, ih, List.length_cons]
    omega

theorem Shows.recorded {outcome : Except EvalError Nat}
    (shown : g.Shows depth program outcome events w last) : w.Extends last events := by
  cases shown with
  | ended each => exact each.recorded
  | broken each breaks =>
    cases breaks with
    | intro opens => exact each.recorded.trans opens.recorded

theorem Shows.countP {steps : Nat} (shown : g.Shows depth program (.ok steps) events w last) :
    events.countP Event.isAfter = steps := by
  cases shown with
  | ended each => exact each.countP

end

end Engine

theorem Interpreter.run_shows {i : Interpreter α β} (tidy : i.engine.Tidy)
    (pending : i.queue.Pending) (fuel : Nat) (program : Program) :
    match i.run fuel program with
    | (.ok report, next) => next.queue.Pending ∧ ∃ events last,
      i.engine.Shows fuel program (.ok report.steps) events i.world last ∧
        next.world = { last with queue := (i.engine.domain.publish last.queue).2 }
    | (.error (.error error), next) => next.queue.Pending ∧ ∃ events,
      i.engine.Shows fuel program (.error error) events i.world next.world
    | (.error .outOfFuel, _) => True := by
  have shown := Engine.slice_shows tidy fuel program i.span fuel 0 pending
  unfold run
  rcases sliced : i.engine.slice fuel program i.span fuel 0 i.world with
    ⟨(error | _) | steps, last⟩ <;> rw [sliced] at shown
  · obtain ⟨settled, blocks, mid, events, each, breaks⟩ := shown
    exact ⟨settled, _, .broken each breaks⟩
  · trivial
  · obtain ⟨settled, blocks, count, each⟩ := shown
    obtain rfl : steps = blocks.length := by omega
    exact ⟨tidy.publishes _ settled, _, last, .ended each, rfl⟩

end ProceduralScene
