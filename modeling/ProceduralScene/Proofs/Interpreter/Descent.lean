import ProceduralScene.Proofs.Interpreter.Turn
import ProceduralScene.Proofs.Queue.Freshness
import ProceduralScene.Proofs.Queue.Lineage

/-! Which ids a run can come to. Seeding gives every description its ordinal, and an advance puts
the parts of an entry in its place, so the entries of every state that a run reaches have a
chart of paths. -/
namespace ProceduralScene

open Evaluation

variable {α β : Type}

namespace Queue

theorem entries_of_pop {q rest : Queue α} {entry : Entry} (popped : q.pop = some (entry, rest)) :
    q.entries = entry :: rest.entries := by
  unfold pop at popped
  split at popped
  · cases popped
  next slots =>
    cases popped
    simp only [entries, inFlight, slots, List.map_cons, List.cons_append]
    rfl

theorem entries_push (q : Queue α) (entry : Entry) (progress : Progress) :
    (q.push entry progress).entries.Perm (entry :: q.entries) := by
  unfold push
  split
  · have last : (q.retire entry progress).entries = q.entries ++ [entry] := by
      simp only [entries, inFlight, retired, retire, Array.toList_push, List.append_assoc]
    rw [last]
    exact List.perm_append_singleton entry q.entries
  · exact ((perm_insertSlot _ q.slots).map Slot.entry).append_right q.retired

theorem entries_of_uncached {q r : Queue α} (same : q.uncached = r.uncached) :
    q.entries = r.entries := by
  have seen : q.uncached.entries = r.uncached.entries := congrArg entries same
  exact seen

end Queue

def Registry.Steady (operations : Registry α) : Prop :=
  ∀ content, operations.Respects fun q r => q = r ∧ q.uncached = content

def Step.width : Step → Nat
  | proceed _ _ => 0
  | fork payloads _ => payloads.length
  | parallel children => children.length

theorem Step.successors_ids (entry : Entry) (step : Step) :
    (step.successors entry).map (·.id) = [entry.id] ∨
      (step.successors entry).map (·.id) =
        (List.range step.width).map fun ordinal => entry.id ++ toString ordinal := by
  cases step with
  | proceed payload push => exact .inl rfl
  | fork payloads push =>
    refine .inr (List.ext_getElem (by simp [successors, width]) fun i _ _ => ?_)
    simp [successors, Entry.prepend, Entry.branch]
  | parallel children =>
    refine .inr (List.ext_getElem (by simp [successors, width]) fun i _ _ => ?_)
    simp [successors, Entry.prepend, Entry.branch]

namespace Engine

variable (g : Engine α β)

theorem entries_scheduleAll (q : Queue α) (entries : List Entry) :
    (g.scheduleAll q entries).entries.Perm (entries ++ q.entries) := by
  induction entries generalizing q with
  | nil => exact .refl _
  | cons entry rest ih =>
    have first := q.entries_push entry (g.domain.progress entry.payload)
    exact (ih (g.schedule q entry)).trans ((first.append_left rest).trans List.perm_middle)

def width (depth : Nat) (program : Program) (w : World α) : Nat :=
  match w.queue.pop with
  | none => 0
  | some (entry, queue) =>
    match entry.pending with
    | [] => 0
    | node :: _ =>
      match g.evaluated depth program { w with queue } entry node with
      | (.ok step, _) => step.width
      | (.error _, _) => 0

/-- The worlds of a run, if no advance splits an entry into more than `limit`. -/
inductive Reaches (program : Program) (limit : Nat) : World α → Prop where
  | begun {q : Queue α} (seeded : g.seed 0 program.entries .empty = (.ok (), q))
    (trace : Option (Array Event)) : Reaches program limit { queue := q, trace }
  | advanced {w : World α} (reached : Reaches program limit w) {depth : Nat}
    (narrow : g.width depth program w ≤ limit)
    (answered : (g.advance depth program w).1 ≠ .error .outOfFuel) :
    Reaches program limit (g.advance depth program w).2
  | published {w : World α} (reached : Reaches program limit w) :
    Reaches program limit { w with queue := (g.domain.publish w.queue).2 }

/-- The operations, and also publishing, change nothing in the queue but its cache. -/
structure ReadsOnly : Prop where
  steady : g.operations.Steady
  publishes : ∀ q, (g.domain.publish q).2.uncached = q.uncached

variable {g}

theorem root_id {ordinal : Nat} {name : String} {d : Description} {entry : Entry}
    (made : g.root ordinal name d = .ok (some entry)) : entry.id = toString ordinal := by
  unfold root at made
  split at made
  · cases made
  next noun _ =>
    split at made
    · cases created : g.domain.createValue d.initialVariables noun.astId with
      | error error =>
        rw [created] at made
        cases made
      | ok payload =>
        rw [created] at made
        cases made
        rfl
    · cases made

theorem seed_chart {descriptions width ordinal : Nat} {rest : List (String × Description)}
    (known : ordinal + rest.length ≤ descriptions) {q : Queue α} {paths : List Path}
    (chart : Chart descriptions width (q.entries.map (·.id)) paths)
    (roots : ∀ path ∈ paths, ∃ root, path = [root] ∧ root < ordinal) :
    ∃ paths', Chart descriptions width ((g.seed ordinal rest q).2.entries.map (·.id)) paths' := by
  induction rest generalizing ordinal q paths with
  | nil => exact ⟨paths, chart⟩
  | cons description rest ih =>
    obtain ⟨name, d⟩ := description
    rw [List.length_cons] at known
    have later (path : Path) (member : path ∈ paths) :
        ∃ root, path = [root] ∧ root < ordinal + 1 := by
      obtain ⟨root, same, earlier⟩ := roots path member
      exact ⟨root, same, by omega⟩
    rw [seed]
    split
    · exact ⟨paths, chart⟩
    · exact ih (by omega) chart later
    next entry made =>
      have added := (q.entries_push entry (g.domain.progress entry.payload)).map Entry.id
      rw [List.map_cons, root_id made] at added
      refine ih (by omega) ((chart.root (by omega) roots).perm added) ?_
      intro path member
      rcases List.mem_cons.mp member with rfl | member
      · exact ⟨ordinal, rfl, Nat.lt_succ_self _⟩
      · exact later path member

theorem seeded_chart (program : Program) (width : Nat) :
    ∃ paths, Chart program.size width
      ((g.seed 0 program.entries .empty).2.entries.map (·.id)) paths := by
  have all : 0 + program.entries.length ≤ program.size := Nat.le_of_eq (Nat.zero_add _)
  have none : Chart program.size width ((Queue.empty : Queue α).entries.map (·.id)) [] :=
    Chart.nil _ _
  exact seed_chart all none fun path member => by cases member

theorem evaluated_steady (steady : g.operations.Steady) {depth : Nat} {program : Program}
    {w : World α} {entry : Entry} {node : Transformation} {outcome : Except Fault Step}
    {after : Scope α} (evaluated : g.evaluated depth program w entry node = (outcome, after))
    (answered : outcome ≠ .error .outOfFuel) : after.queue.uncached = w.queue.uncached := by
  have same : w.queue = w.queue ∧ w.queue.uncached = w.queue.uncached := ⟨rfl, rfl⟩
  have agree := g.evaluated_agree (steady w.queue.uncached) same (Nat.le_refl depth) program entry
    node
  rw [evaluated] at agree
  rcases agree with exhausted | ⟨_, related⟩
  · exact absurd exhausted answered
  · exact related.queue.2

/-- One advance puts the parts of an entry in its place. -/
theorem advance_chart (steady : g.operations.Steady) {descriptions limit : Nat} {depth : Nat}
    {program : Program} {w : World α} (narrow : g.width depth program w ≤ limit)
    (answered : (g.advance depth program w).1 ≠ .error .outOfFuel) {paths : List Path}
    (chart : Chart descriptions limit (w.queue.entries.map (·.id)) paths) :
    ∃ paths', Chart descriptions limit
      ((g.advance depth program w).2.queue.entries.map (·.id)) paths' := by
  cases popped : w.queue.pop with
  | none =>
    rw [g.advance_of_pop_none popped]
    exact ⟨paths, chart⟩
  | some taken =>
    obtain ⟨entry, rest⟩ := taken
    rw [Queue.entries_of_pop popped, List.map_cons] at chart
    cases pending : entry.pending with
    | nil =>
      rw [g.advance_of_terminal popped pending]
      exact ⟨paths, chart.perm ((rest.entries_push entry _).map Entry.id)⟩
    | cons node nodes =>
      rw [g.advance_of_pop popped pending] at answered ⊢
      simp only [width, popped, pending] at narrow
      rcases evaluated : g.evaluated depth program { w with queue := rest } entry node with
        ⟨fault | step, after⟩
      -- a failed entry is gone, and the operations touched no other
      · rw [evaluated] at answered
        have same := Queue.entries_of_uncached (evaluated_steady steady evaluated
          fun exhausted => answered (by
            cases exhausted
            rfl))
        dsimp only
        rw [same]
        exact chart.drop
      · rw [evaluated] at narrow
        have same := Queue.entries_of_uncached (evaluated_steady steady evaluated
          fun exhausted => by cases exhausted)
        have placed := (g.entries_scheduleAll after.queue (followers entry nodes step after)).map
          Entry.id
        rw [List.map_append, same] at placed
        -- either the entry goes on under its id, or its parts replace it
        rcases step.successors_ids { entry with value := after.value, pending := nodes } with
          ids | ids
        · rw [followers, ids] at placed
          exact ⟨paths, chart.perm placed⟩
        · rw [followers, ids] at placed
          obtain ⟨paths', split⟩ := chart.split narrow
          exact ⟨paths', split.perm placed⟩

theorem Reaches.chart (steady : g.operations.Steady)
    (publishes : ∀ q, (g.domain.publish q).2.uncached = q.uncached) {program : Program}
    {limit : Nat} {w : World α} (reached : g.Reaches program limit w) :
    ∃ paths, Chart program.size limit (w.queue.entries.map (·.id)) paths := by
  induction reached with
  | begun seeded trace =>
    have chart := g.seeded_chart program limit
    rwa [seeded] at chart
  | advanced _ narrow answered ih =>
    obtain ⟨paths, chart⟩ := ih
    exact advance_chart steady narrow answered chart
  | published _ ih =>
    obtain ⟨paths, chart⟩ := ih
    rw [← Queue.entries_of_uncached (publishes _)] at chart
    exact ⟨paths, chart⟩

end Engine
end ProceduralScene
