import ProceduralScene.Proofs.Interpreter.Publication
import ProceduralScene.Proofs.Interpreter.Replacement

/-! Work is done in order of progress. As long as no entry falls behind the one that it follows, an
entry that is evaluated at some progress leaves nothing below it: what is in flight then is not
below it, and whatever is scheduled by the rest of the run is not below it either. -/
namespace ProceduralScene

variable {α β : Type}

namespace Engine

variable (g : Engine α β)

/-- Nothing in flight is below a progress, and nothing that has retired since an earlier queue was
scheduled below it. -/
structure Onward (p : Progress) (base r : Queue α) : Prop where
  waiting : ∀ slot ∈ r.slots, p ≤ slot.progress
  retired : ∀ entry ∈ r.retired.drop base.results.size, p ≤ g.domain.progress entry.payload

/-- The later outcome is onward from the entry that is evaluated after the earlier one. -/
def Causal : Except EvalError (Queue α) → Except EvalError (Queue α) → Prop
  | .ok q, .ok r => ∀ slot, q.slots.head? = some slot → g.Onward slot.progress q r
  | _, _ => True

/-- The progresses at which the entries evaluated in a run were scheduled, and that of the entry
which would be evaluated next. -/
def visited (outcomes : List (Except EvalError (Queue α))) : List Progress :=
  outcomes.filterMap fun outcome =>
    outcome.toOption.bind fun q => q.slots.head?.map (·.progress)

variable {g} {program : Program} {p : Progress} {base q r : Queue α}

theorem Turns.exchanged (turns : g.Turns program q r) (kept : q.Kept)
    (keepsUp : g.keepsUp q r = true) :
    ∃ slot behind arrivals, q.slots = slot :: behind ∧ q.Exchanged r arrivals ∧
      ∀ a ∈ arrivals, a.progress = g.domain.progress a.entry.payload ∧
        slot.progress ≤ a.progress := by
  obtain ⟨slots, pending, evaluated, content⟩ := turns
  refine ⟨_, _, _, slots, exchanged_scheduleAll kept slots content, fun a member => ?_⟩
  obtain ⟨entry, follows, rfl⟩ := List.mem_map.mp member
  exact ⟨rfl, (keepsUp_iff slots).mp keepsUp entry (mem_arrivals_of_content content follows)⟩

theorem Turns.size_le (turns : g.Turns program q r) (kept : q.Kept) :
    q.results.size ≤ r.results.size := by
  obtain ⟨slots, pending, evaluated, content⟩ := turns
  have retired := congrArg List.length (exchanged_scheduleAll kept slots content).retired
  simp only [Queue.retired, List.length_append, Array.length_toList] at retired
  omega

theorem Turns.onward (turns : g.Turns program q r) (kept : q.Kept)
    (keepsUp : g.keepsUp q r = true) (older : base.results.size ≤ q.results.size)
    (onward : g.Onward p base q) : g.Onward p base r := by
  obtain ⟨slot, behind, arrivals, slots, exchanged, come⟩ := turns.exchanged kept keepsUp
  have first : p ≤ slot.progress :=
    onward.waiting slot (by rw [slots]; exact List.mem_cons_self)
  refine ⟨fun other member => ?_, fun entry member => ?_⟩
  · have arrived : other.arrival ∈ r.slots.map Slot.arrival := List.mem_map_of_mem member
    rw [exchanged.waiting, List.mem_mergeSort, List.mem_append, slots] at arrived
    rcases arrived with stayed | came
    · obtain ⟨same, here, agree⟩ := List.mem_map.mp stayed
      rw [show other.progress = same.progress from congrArg Arrival.progress agree.symm]
      exact onward.waiting same (by rw [slots]; exact List.mem_cons_of_mem _ here)
    · exact Progress.le_trans first (come _ (List.mem_filter.mp came).1).2
  · rw [exchanged.retired, List.drop_append_of_le_length (by simpa [Queue.retired] using older)]
      at member
    rcases List.mem_append.mp member with stayed | came
    · exact onward.retired entry stayed
    · obtain ⟨a, here, rfl⟩ := List.mem_map.mp came
      obtain ⟨timed, ahead⟩ := come a (List.mem_filter.mp here).1
      rw [← timed]
      exact Progress.le_trans first ahead

theorem Course.onward {outcomes : List (Except EvalError (Queue α))} {reports : List (Report β)}
    (course : g.Course program q outcomes reports) (kept : q.Kept)
    (moves : g.movesOn (.ok q :: outcomes) = true) (older : base.results.size ≤ q.results.size)
    (onward : g.Onward p base q) : ∀ r, .ok r ∈ outcomes → g.Onward p base r := by
  induction course with
  | stop q =>
    intro r member
    cases member
  | failed work error =>
    intro r member
    cases List.mem_singleton.mp member
  | turned turns later ih =>
    intro r member
    rw [movesOn, Bool.and_eq_true] at moves
    have next := turns.onward kept moves.1 older onward
    rcases List.mem_cons.mp member with same | member
    · cases same
      exact next
    · exact ih (turns.kept kept) moves.2 (Nat.le_trans older (turns.size_le kept)) next r member
  | reported current isFinal later ih => exact ih kept moves older onward

theorem onward_head (kept : q.Kept) {slot : Slot} (head : q.slots.head? = some slot) :
    g.Onward slot.progress q q := by
  have published : q.progress? = some slot.progress := by
    obtain ⟨behind, slots⟩ := List.head?_eq_some_iff.mp head
    rw [Queue.progress?, slots]
  refine ⟨(kept.above published).slots, fun entry member => ?_⟩
  rw [Queue.retired, List.drop_of_length_le (Nat.le_of_eq Array.length_toList)] at member
  cases member

theorem causal_head (kept : q.Kept) : g.Causal (.ok q) (.ok q) :=
  fun _ head => onward_head kept head

theorem Course.causal_after {outcomes : List (Except EvalError (Queue α))}
    {reports : List (Report β)} (course : g.Course program q outcomes reports) (kept : q.Kept)
    (moves : g.movesOn (.ok q :: outcomes) = true) :
    ∀ outcome ∈ outcomes, g.Causal (.ok q) outcome := by
  intro outcome member
  cases outcome with
  | error error => trivial
  | ok r =>
    intro slot head
    exact course.onward kept moves (Nat.le_refl _) (onward_head kept head) r member

theorem Course.causal {outcomes : List (Except EvalError (Queue α))} {reports : List (Report β)}
    (course : g.Course program q outcomes reports) (kept : q.Kept)
    (moves : g.movesOn (.ok q :: outcomes) = true) :
    (∀ outcome ∈ .ok q :: outcomes, g.Causal outcome outcome) ∧
      (.ok q :: outcomes).Pairwise g.Causal := by
  -- each queue comes before what its course goes on with; the reports in between change nothing
  induction course with
  | stop q => exact ⟨List.forall_mem_singleton.mpr (causal_head kept), List.pairwise_singleton _ _⟩
  | failed work error =>
    refine ⟨List.forall_mem_cons.mpr ⟨causal_head kept, List.forall_mem_singleton.mpr trivial⟩, ?_⟩
    exact List.pairwise_pair.mpr trivial
  | turned turns later ih =>
    have after := (Course.turned turns later).causal_after kept moves
    rw [movesOn, Bool.and_eq_true] at moves
    obtain ⟨each, pairwise⟩ := ih (turns.kept kept) moves.2
    exact ⟨List.forall_mem_cons.mpr ⟨causal_head kept, each⟩,
      List.pairwise_cons.mpr ⟨after, pairwise⟩⟩
  | reported current isFinal later ih => exact ih kept moves

theorem visited_ordered {outcomes : List (Except EvalError (Queue α))}
    (causal : outcomes.Pairwise g.Causal) : (visited outcomes).Pairwise (· ≤ ·) := by
  refine List.pairwise_filterMap.mpr (causal.imp fun {earlier later} onward => ?_)
  intro p reached p' reached'
  cases earlier with
  | error error => cases reached
  | ok q =>
    cases later with
    | error error => cases reached'
    | ok r =>
      obtain ⟨slot, head, rfl⟩ := Option.map_eq_some_iff.mp reached
      obtain ⟨slot', head', rfl⟩ := Option.map_eq_some_iff.mp reached'
      exact (onward slot head).waiting slot' (List.mem_of_head? head')

end Engine

namespace Interpreter

/-- In a run that moves on entries are evaluated in the order of the progress at which they were
scheduled, and when one is evaluated nothing is below it, then and in all that follows. -/
theorem history_causal {g : Engine α β} (steady : g.operations.Steady)
    (publishes : ∀ q, (g.domain.publish q).2.uncached = q.uncached) {i : Interpreter α β}
    (own : i.engine = g) (fuel : Nat) (program : Program) (requested : Progress)
    (calls : List Control)
    (moves : g.movesOn (i.history fuel program requested calls).outcomes = true) :
    (Engine.visited (i.history fuel program requested calls).outcomes).Pairwise (· ≤ ·) ∧
      (∀ outcome ∈ (i.history fuel program requested calls).outcomes,
        g.Causal outcome outcome) ∧
      (i.history fuel program requested calls).outcomes.Pairwise g.Causal := by
  rcases history_course steady publishes own fuel program requested calls with
    refused | ⟨error, failed⟩ | ⟨seeded, outcomes, reports, _, history, kept, course⟩
  · rw [refused]
    exact ⟨.nil, List.forall_mem_nil _, .nil⟩
  · rw [failed]
    exact ⟨.nil, List.forall_mem_singleton.mpr trivial, List.pairwise_singleton _ _⟩
  · rw [history] at moves ⊢
    obtain ⟨each, pairwise⟩ := course.causal kept moves
    exact ⟨Engine.visited_ordered pairwise, each, pairwise⟩

end Interpreter

namespace Scene

def parting : Program := .ofList [("parting", {
  initialVariables := .empty
  nouns := .ofList [("part", ⟨"part", .sequential "all" [
    .operation "two" "clone" [.literal "count" (.number 2)],
    .operation "pause" "wait" [.binary "longer" .add (.getVariable "own" "index")
      (.literal "one" (.number 1))],
    .operation "again" "wait" [.literal "one" (.number 1)]]⟩)]
  root := "part" })]

def parted : History Network Snapshot :=
  (Interpreter.scene {} ⟨0⟩).history 10 parting 10
    [.resume ⟨1⟩, .resume ⟨2⟩, .cancel, .request 20, .request 20, .request 20]

theorem parted_causal :
    (engine {} ⟨0⟩).movesOn parted.outcomes = true ∧
      (Engine.visited parted.outcomes).Pairwise (· ≤ ·) ∧
      (∀ outcome ∈ parted.outcomes, (engine {} ⟨0⟩).Causal outcome outcome) ∧
      parted.outcomes.Pairwise (engine {} ⟨0⟩).Causal := by
  have moves : (engine {} ⟨0⟩).movesOn parted.outcomes = true := by decide +kernel
  exact ⟨moves, Interpreter.history_causal (engine_steady {} ⟨0⟩) (uncached_publish {} ⟨0⟩)
    (Eq.refl (Interpreter.scene {} ⟨0⟩).engine) 10 parting 10 _ moves⟩

end Scene
end ProceduralScene
