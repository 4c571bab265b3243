import ProceduralScene.Proofs.Evaluation.Assignment
import ProceduralScene.Proofs.Interpreter.Course
import ProceduralScene.Proofs.Scene.Identity

/-! One advance replaces one entry. The first entry in flight is gone, and what its next node makes
of it has come in its place: the results are longer by the entries that are done, and the other
entries in flight have been joined, in the order of progress, by those that are not. -/
namespace ProceduralScene

open Evaluation

variable {α β : Type}

namespace Entry

def part (e : Entry) (ordinal : Nat) (payload : Payload) (pending : List Transformation) :
    Entry where
  id := e.id ++ toString ordinal
  value := ⟨payload, e.value.vars.insert "index" (.number ordinal.toFloat)⟩
  seed := e.seed
  pending := pending

/-- The entries that take the place of an entry after the answer of its next node, which has left
the given variables. -/
def replacedBy (e : Entry) (vars : Variables) (rest : List Transformation) : Step → List Entry
  | .proceed payload push =>
    [⟨e.id, ⟨payload.getD e.payload, vars⟩, e.seed, push ++ rest⟩]
  | .fork payloads push =>
    payloads.mapIdx fun ordinal payload => e.part ordinal payload (push ++ rest)
  | .parallel children =>
    children.mapIdx fun ordinal child => e.part ordinal e.payload (child :: rest)

end Entry

/-- The first entry in flight is gone from a queue, and others have arrived. -/
structure Queue.Exchanged (q r : Queue α) (arrivals : List Arrival) : Prop where
  others : q.slots.tail.Sublist r.slots
  waiting : r.slots.map Slot.arrival =
    (q.slots.tail.map Slot.arrival ++ arrivals.filter fun a => !a.entry.isTerminal).mergeSort
      Arrival.notAfter
  retired : r.retired =
    q.retired ++ (arrivals.filter fun a => a.entry.isTerminal).map (·.entry)

namespace Engine

variable (g : Engine α β)

def arrival (entry : Entry) : Arrival := ⟨g.domain.progress entry.payload, entry⟩

/-- The variables of an entry once its next node has been evaluated: a node that sets a variable
sets it to the payload of its expression, and no other node sets any. -/
def Assigns (depth : Nat) (program : Program) (w : World α) (entry : Entry)
    (node : Transformation) (vars : Variables) : Prop :=
  match node.assigned? with
  | none => vars = entry.value.vars
  | some (name, expression) => ∃ payload,
      (on ((g.evaluator program entry).resolve depth expression) (turnScope w entry node)).1 =
        .ok payload ∧
      vars = entry.value.vars.insert name payload

inductive Replaces (depth : Nat) (program : Program) (w next : World α) : Prop where
  | entry {slot : Slot} {behind : List Slot} {node : Transformation} {rest : List Transformation}
    {step : Step} {vars : Variables}
    (head : w.queue.slots = slot :: behind) (pending : slot.entry.pending = node :: rest)
    (answered : (g.evaluated depth program { w with queue := { w.queue with slots := behind } }
      slot.entry node).1 = .ok step)
    (assigns : g.Assigns depth program { w with queue := { w.queue with slots := behind } }
      slot.entry node vars)
    (exchanged : w.queue.Exchanged next.queue
      ((slot.entry.replacedBy vars rest step).map g.arrival))

variable {g}

theorem evaluated_assigns {depth : Nat} {program : Program} {w : World α} {entry : Entry}
    {node : Transformation} {step : Step} {after : Scope α}
    (evaluated : g.evaluated depth program w entry node = (.ok step, after)) :
    ∃ vars, g.Assigns depth program w entry node vars ∧
      ∀ rest, followers entry rest step after = entry.replacedBy vars rest step := by
  have value := (g.evaluator program entry).value_step
    (fun child => private_scratch ((g.evaluator program entry).evaluate depth child)) evaluated
  unfold Assigns
  cases sets : node.assigned? with
  | none =>
    rw [sets] at value
    refine ⟨_, rfl, fun rest => ?_⟩
    have unchanged : after.value = entry.value := value
    rw [followers, unchanged]
    cases step <;> rfl
  | some assigned =>
    obtain ⟨name, expression⟩ := assigned
    rw [sets] at value
    obtain ⟨payload, resolved, set, rfl⟩ := value
    refine ⟨_, ⟨payload, resolved, rfl⟩, fun rest => ?_⟩
    rw [followers, set]
    rfl

theorem sublist_scheduleAll (q : Queue α) (entries : List Entry) :
    q.slots.Sublist (g.scheduleAll q entries).slots := by
  induction entries generalizing q with
  | nil => exact List.Sublist.refl _
  | cons entry rest ih =>
    refine List.Sublist.trans ?_ (ih (g.schedule q entry))
    unfold schedule Queue.push
    split
    · exact List.Sublist.refl _
    · exact sublist_insertSlot _ _

theorem exchanged_scheduleAll {q r : Queue α} (kept : q.Kept) {slot : Slot} {behind : List Slot}
    (slots : q.slots = slot :: behind) {entries : List Entry}
    (content : r.uncached =
      (g.scheduleAll { q with slots := behind } entries).uncached) :
    q.Exchanged r (entries.map g.arrival) := by
  obtain ⟨ledger, numbered, keeps⟩ := kept.behind slots
  obtain ⟨numbered', pushed⟩ := keeps.pushAll (entries.map g.arrival)
  rw [List.foldl_map] at pushed
  have keeps' : r.Keeps (ledger.pushAll (entries.map g.arrival)) numbered' :=
    pushed.of_uncached content
  have tail : q.slots.tail = ({ q with slots := behind } : Queue α).slots := by rw [slots]; rfl
  refine ⟨?_, ?_, ?_⟩
  · rw [tail, Queue.slots_of_uncached content]
    exact sublist_scheduleAll _ entries
  · -- both are the arrivals of the ledger in the order of service, and there is one such order
    have resorted := keeps.stable.resort
      ((entries.map g.arrival).filter fun a => !a.entry.isTerminal)
    have served := keeps'.stable
    rw [Ledger.waiting_pushAll] at served
    rw [tail]
    exact served.unique resorted
  · have before : q.retired = ledger.retired.map (·.entry) := keeps.retired
    rw [keeps'.retired, Ledger.retired_pushAll, List.map_append, before]

theorem advance_exchanges (steady : g.operations.Steady) {depth : Nat} {program : Program}
    {w next : World α} (kept : w.queue.Kept) (work : w.queue.hasWork = true)
    (advanced : g.advance depth program w = (.ok (), next)) : g.Replaces depth program w next := by
  obtain ⟨slot, behind, node, rest, step, after, head, pending, evaluated, content⟩ :=
    advance_inversion steady kept work advanced
  obtain ⟨vars, assigns, followed⟩ := evaluated_assigns evaluated
  rw [followed] at content
  exact .entry head pending (congrArg Prod.fst evaluated) assigns
    (exchanged_scheduleAll kept head content)

theorem advance_kept (steady : g.operations.Steady) {depth : Nat} {program : Program}
    {w : World α} (kept : w.queue.Kept)
    (answered : (g.advance depth program w).1 ≠ .error .outOfFuel) :
    (g.advance depth program w).2.queue.Kept := by
  cases slots : w.queue.slots with
  | nil =>
    rw [g.advance_of_pop_none (by rw [Queue.pop, slots])]
    exact kept
  | cons slot behind =>
    have popped : w.queue.pop = some (slot.entry, { w.queue with slots := behind }) := by
      rw [Queue.pop, slots]
    have left : ({ w.queue with slots := behind } : Queue α).Kept := kept.behind slots
    cases pending : slot.entry.pending with
    | nil =>
      rw [g.advance_of_terminal popped pending]
      exact left.push _ _
    | cons node rest =>
      rw [advance_of_pop g popped pending] at answered ⊢
      rcases evaluated : g.evaluated depth program
        { w with queue := { w.queue with slots := behind } } slot.entry node with
        ⟨fault | step, after⟩
      · rw [evaluated] at answered
        exact left.of_uncached (evaluated_steady steady evaluated fun exhausted =>
          answered (by cases exhausted; rfl))
      · have same := evaluated_steady steady evaluated fun exhausted => by cases exhausted
        exact kept_scheduleAll (left.of_uncached same) _

theorem Reaches.kept (steady : g.operations.Steady)
    (publishes : ∀ q, (g.domain.publish q).2.uncached = q.uncached) {program : Program}
    {limit : Nat} {w : World α} (reached : g.Reaches program limit w) : w.queue.Kept := by
  induction reached with
  | begun seeded trace =>
    have made : (g.seed 0 program.entries .empty).2.Kept := kept_seed ⟨_, _, Queue.keeps_empty⟩
    rw [seeded] at made
    exact made
  | advanced _ _ answered ih => exact advance_kept steady ih answered
  | published _ ih => exact ih.of_uncached (publishes _)

end Engine

namespace Scene

/-- In every state of a scene with work, an advance that succeeds replaces the first entry. -/
theorem advance_replaces (scene : SceneConfig) (config : EngineConfig) {program : Program}
    {limit : Nat} {w : World Network} (reached : (engine scene config).Reaches program limit w)
    (work : w.queue.hasWork = true) {depth : Nat} {next : World Network}
    (advanced : (engine scene config).advance depth program w = (.ok (), next)) :
    (engine scene config).Replaces depth program w next :=
  Engine.advance_exchanges (engine_steady scene config)
    (reached.kept (engine_steady scene config) (uncached_publish scene config)) work advanced

theorem advance_advances {program : Program} {turns : Nat}
    (ok : ((engine {} {}).advance 2 program (advances program turns)).1.isOk = true) :
    (engine {} {}).advance 2 program (advances program turns) =
      (.ok (), advances program (turns + 1)) := by
  rw [advances]
  rcases advanced : (engine {} {}).advance 2 program (advances program turns) with ⟨_ | _, next⟩
  · rw [advanced] at ok
    cases ok
  · rfl

/-- Somebody who sets a variable by an expression that sets one of its own, and a bystander. -/
def setting : Program := .ofList (["somebody", "bystander"].map fun name => (name, {
  initialVariables := .empty
  nouns := .ofList [("go", ⟨"go", .sequential "all" [
    .setVariable "outer" "kept" (.setVariable "inner" "lost" (.literal "one" (.number 1))),
    .this "end"]⟩)]
  root := "go" }))

theorem setting_replaced :
    (engine {} {}).Reaches setting 0 (advances setting 2) ∧
      (advances setting 2).queue.hasWork = true ∧
      (engine {} {}).advance 2 setting (advances setting 2) = (.ok (), advances setting 3) ∧
      (engine {} {}).Replaces 2 setting (advances setting 2) (advances setting 3) := by
  have reached : (engine {} {}).Reaches setting 0 (advances setting 2) :=
    reaches_advances (by decide +kernel) (by decide +kernel)
  have work : (advances setting 2).queue.hasWork = true := by decide +kernel
  have advanced : (engine {} {}).advance 2 setting (advances setting 2) =
      (.ok (), advances setting 3) := advance_advances (by decide +kernel)
  exact ⟨reached, work, advanced, advance_replaces {} {} reached work advanced⟩

end Scene
end ProceduralScene
