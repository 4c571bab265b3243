import ProceduralScene.Proofs.Evaluation.Sustained
import ProceduralScene.Proofs.Interpreter.Settling
import ProceduralScene.Proofs.Interpreter.Visits

/-! What a run keeps up. If roots start with payloads of a kind and evaluation keeps to payloads of
the kind, every entry of every world that the run comes to holds only such payloads, whatever it
stores, restores or splits into, and the run ends with no error but those of the evaluation. -/
namespace ProceduralScene

open Evaluation

variable {α β : Type}

structure Entry.Within (K : Transformation → Prop) (V : Payload → Prop) (entry : Entry) : Prop where
  pending : entry.Of K
  value : entry.value.All V

namespace Engine

/-- A kind of nodes and a kind of payloads that a run does not leave, and a kind of errors that it
keeps to. -/
structure Upkeep (g : Engine α β) (program : Program) (K : Transformation → Prop)
    (V : Payload → Prop) (E : EvalError → Prop) : Prop where
  sustained : ∀ entry, (g.evaluator program entry).Sustained K V E
  roots : ∀ d ∈ program.entries, ∀ noun, d.2.rootNoun? = some noun → K noun.transformation
  initial : ∀ d ∈ program.entries, ∀ entry ∈ d.2.initialVariables.entries, V entry.2
  created : ∀ vars astId, Fulfils V E (g.domain.createValue vars astId)
  rootless : ∀ name noun, E (.unknownRootNoun name noun)

variable {g : Engine α β} {program : Program} {K : Transformation → Prop} {V : Payload → Prop}
  {E : EvalError → Prop}

theorem value_followers (entry : Entry) {rest : List Transformation} {step : Step}
    {after : Scope α} (given : ∀ payload ∈ step.payloads, V payload) (all : after.value.All V)
    (numbers : ∀ x, V (.number x)) :
    ∀ follower ∈ followers entry rest step after, follower.value.All V := by
  intro follower member
  cases step with
  | proceed payload push =>
    rw [followers, Step.successors, List.mem_singleton] at member
    subst member
    cases payload with
    | none => exact all
    | some payload => exact all.withPayload (given payload (List.mem_singleton_self _))
  | fork payloads push =>
    rw [followers, Step.successors, List.mem_mapIdx] at member
    obtain ⟨ordinal, inside, rfl⟩ := member
    exact all.branch (given _ (List.getElem_mem inside)) (numbers _)
  | parallel children =>
    rw [followers, Step.successors, List.mem_mapIdx] at member
    obtain ⟨ordinal, inside, rfl⟩ := member
    exact all.branch all.payload (numbers _)

variable (upkeep : g.Upkeep program K V E)

include upkeep

theorem Upkeep.number (x : Float) : V (.number x) :=
  (upkeep.sustained default).scalars _ rfl

theorem Upkeep.turn {entry : Entry} (within : entry.Within K V) {node : Transformation}
    {rest : List Transformation} (pending : entry.pending = node :: rest) (depth : Nat)
    (w : World α) :
    match g.evaluated depth program w entry node with
    | (.ok step, after) => ∀ follower ∈ followers entry rest step after, follower.Within K V
    | (.error (.error error), _) => E error
    | (.error .outOfFuel, _) => True := by
  have sustained := upkeep.sustained entry
  have first : K node := within.pending node (by rw [pending]; exact List.mem_cons_self)
  have others : ∀ next ∈ rest, K next := fun next member =>
    within.pending next (by rw [pending]; exact List.mem_cons_of_mem _ member)
  have kept := sustained.step first (fun child member => Evaluator.sustains_resolve sustained depth
    (sustained.below node first child member)) (turnScope w entry node) within.value
  rw [show on _ _ = g.evaluated depth program w entry node from rfl] at kept
  rcases evaluated : g.evaluated depth program w entry node with ⟨(error | _) | step, after⟩ <;>
    rw [evaluated] at kept
  · exact kept
  · trivial
  · obtain ⟨answer, all⟩ := kept
    exact fun follower member =>
      ⟨of_followers entry after answer.nodes others follower member,
        value_followers entry answer.payloads all upkeep.number follower member⟩

theorem Upkeep.root {ordinal : Nat} {name : String} {d : Description}
    (member : (name, d) ∈ program.entries) :
    Fulfils (fun made => ∀ entry, made = some entry → entry.Within K V) E
      (g.root ordinal name d) := by
  unfold Engine.root
  split
  · exact upkeep.rootless _ _
  next noun known =>
    split
    · refine (upkeep.created _ _).bind fun payload good entry made => ?_
      cases made
      have initial : (⟨payload, d.initialVariables⟩ : Value).All V :=
        ⟨good, upkeep.initial _ member⟩
      refine ⟨fun node first => ?_, initial.branch good (upkeep.number _)⟩
      rw [List.mem_singleton.mp first]
      exact upkeep.roots _ member noun known
    · exact nofun

theorem Upkeep.seed {ordinal : Nat} {descriptions : List (String × Description)}
    (among : ∀ d ∈ descriptions, d ∈ program.entries) {q : Queue α}
    (within : ∀ entry ∈ q.entries, entry.Within K V) :
    (∀ entry ∈ (g.seed ordinal descriptions q).2.entries, entry.Within K V) ∧
      ∀ error, (g.seed ordinal descriptions q).1 = .error error → E error := by
  induction descriptions generalizing ordinal q with
  | nil => exact ⟨within, nofun⟩
  | cons description rest ih =>
    obtain ⟨name, d⟩ := description
    have made : Fulfils _ _ (g.root ordinal name d) := upkeep.root (among _ List.mem_cons_self)
    have later : ∀ d ∈ rest, d ∈ program.entries := fun d member =>
      among d (List.mem_cons_of_mem _ member)
    unfold Engine.seed
    split
    next error failed =>
      rw [failed] at made
      refine ⟨within, fun other same => ?_⟩
      cases same
      exact made
    · exact ih later within
    next entry root =>
      rw [root] at made
      refine ih later fun other member => ?_
      rcases List.mem_cons.mp ((q.entries_push entry _).mem_iff.mp member) with rfl | member
      · exact made _ rfl
      · exact within other member

theorem Upkeep.advance (steady : g.operations.Steady) {w : World α}
    (within : ∀ entry ∈ w.queue.entries, entry.Within K V) (depth : Nat) :
    ((g.advance depth program w).1 ≠ .error .outOfFuel →
        ∀ entry ∈ (g.advance depth program w).2.queue.entries, entry.Within K V) ∧
      ∀ error, (g.advance depth program w).1 = .error (.error error) → E error := by
  cases popped : w.queue.pop with
  | none =>
    rw [g.advance_of_pop_none popped]
    exact ⟨fun _ => within, nofun⟩
  | some taken =>
    obtain ⟨entry, queue⟩ := taken
    rw [Queue.entries_of_pop popped] at within
    obtain ⟨own, others⟩ := List.forall_mem_cons.mp within
    cases pending : entry.pending with
    | nil =>
      rw [g.advance_of_terminal popped pending]
      refine ⟨fun _ other member => ?_, nofun⟩
      rcases List.mem_cons.mp ((queue.entries_push entry _).mem_iff.mp member) with rfl | member
      · exact own
      · exact others other member
    | cons node rest =>
      rw [advance_of_pop g popped pending]
      have turned := upkeep.turn own pending depth { w with queue }
      rcases evaluated : g.evaluated depth program { w with queue } entry node with
        ⟨(error | _) | step, after⟩
      · rw [evaluated] at turned
        have same := Queue.entries_of_uncached (evaluated_steady steady evaluated nofun)
        refine ⟨fun _ other member => others other (same ▸ member), fun error' failed => ?_⟩
        cases failed
        exact turned
      · exact ⟨fun answered => absurd rfl answered, nofun⟩
      · rw [evaluated] at turned
        have same := Queue.entries_of_uncached (evaluated_steady steady evaluated nofun)
        refine ⟨fun _ other member => ?_, nofun⟩
        have placed := g.entries_scheduleAll after.queue (followers entry rest step after)
        rcases List.mem_append.mp (placed.mem_iff.mp member) with new | old
        · exact turned other new
        · exact others other (same ▸ old)

theorem Upkeep.seeded :
    (∀ entry ∈ (g.seed 0 program.entries .empty).2.entries, entry.Within K V) ∧
      ∀ error, (g.seed 0 program.entries .empty).1 = .error error → E error := by
  refine upkeep.seed (fun _ member => member) fun entry member => ?_
  have none : entry ∈ ([] : List Entry) := member
  cases none

/-- Every entry of every world that a run comes to keeps to the kinds. -/
theorem Upkeep.visits (steady : g.operations.Steady)
    (publishes : ∀ q, (g.domain.publish q).2.uncached = q.uncached) {w : World α}
    (visited : g.Visits program w) : ∀ entry ∈ w.queue.entries, entry.Within K V := by
  refine visited.invariant (P := fun q => ∀ entry ∈ q.entries, entry.Within K V) ?_ ?_ ?_
  · exact upkeep.seeded.1
  · exact fun depth w within => (upkeep.advance steady within depth).1
  · intro q within
    rw [Queue.entries_of_uncached (publishes q)]
    exact within

theorem Upkeep.shown (steady : g.operations.Steady)
    (publishes : ∀ q, (g.domain.publish q).2.uncached = q.uncached) {error : EvalError}
    (shown : g.Shown program (.error error)) : E error := by
  cases shown with
  | unseeded failed => exact upkeep.seeded.2 error failed
  | failed visited failed =>
    exact (upkeep.advance steady (upkeep.visits steady publishes visited) _).2 error failed

end Engine
end ProceduralScene
