import ProceduralScene.Proofs.Interpreter.Course
import ProceduralScene.Proofs.Scene.Identity
import ProceduralScene.Proofs.Scene.Slicing

/-! What a run publishes of its progress. As long as no entry falls behind the one that it follows,
neither does the queue: what is in flight is ahead of the entry evaluated last, and so is the result
that it retires as. The one way back is an entry that splits into nothing. If it was the last one in
flight and ahead of all results, the queue falls back to these. -/
namespace ProceduralScene

open Evaluation

variable {α β : Type}

def Report.NoLess (a b : Report β) : Prop :=
  ∀ p, a.current = some p → ∃ q, b.current = some q ∧ p ≤ q

instance (a b : Report β) : Decidable (a.NoLess b) :=
  match here : a.current, there : b.current with
  | none, _ => .isTrue fun p some => by cases here.symm.trans some
  | some p, none => .isFalse fun noLess => by
    obtain ⟨q, some, _⟩ := noLess p here
    cases there.symm.trans some
  | some p, some q => decidable_of_iff (p ≤ q)
    ⟨fun le p' some => by cases here.symm.trans some; exact ⟨q, there, le⟩,
      fun noLess => by
        obtain ⟨q', some, le⟩ := noLess p here
        cases there.symm.trans some
        exact le⟩

namespace Queue

/-- The entries that have come to a queue since an earlier one: slots are numbered and results
retire in the order in which they come. -/
def arrivals (q r : Queue α) : List Entry :=
  (r.slots.filter fun slot => q.sequence ≤ slot.sequence).map (·.entry) ++
    r.retired.drop q.results.size

/-- The only entry in flight is gone and nothing has come in its place, though it was ahead of all
results. -/
structure Vanishes (q r : Queue α) (slot : Slot) : Prop where
  only : q.slots = [slot]
  drained : r.slots = []
  results : r.results = q.results
  ahead : ∀ furthest, q.furthest = some furthest → furthest < slot.progress

/-- Nothing in flight is below a progress, and without any entry in flight no less has been reached
by a result. -/
structure Above (q : Queue α) (p : Progress) : Prop where
  slots : ∀ slot ∈ q.slots, p ≤ slot.progress
  results : q.slots = [] → ∃ furthest, q.furthest = some furthest ∧ p ≤ furthest

end Queue

namespace Engine

variable (g : Engine α β)

/-- Nothing that came with an evaluation falls behind the entry that was evaluated. -/
def keepsUp (q r : Queue α) : Bool :=
  q.slots.head?.all fun slot => (q.arrivals r).all fun entry =>
    slot.progress ≤ g.domain.progress entry.payload

def movesOn : List (Except EvalError (Queue α)) → Bool
  | .ok q :: .ok r :: rest => g.keepsUp q r && movesOn (.ok r :: rest)
  | _ => true

end Engine

namespace Queue

variable {q r : Queue α} {p : Progress}

theorem Kept.above (kept : q.Kept) (published : q.progress? = some p) : q.Above p := by
  obtain ⟨ledger, numbered, keeps⟩ := kept
  have ordered := keeps.ordered
  cases slots : q.slots with
  | nil =>
    rw [progress?, slots] at published
    refine ⟨fun slot member => ?_, fun _ => ⟨p, published, Progress.le_refl p⟩⟩
    rw [slots] at member
    cases member
  | cons first rest =>
    rw [progress?, slots] at published
    cases published
    rw [slots] at ordered
    refine ⟨fun slot member => ?_, fun drained => by cases slots.symm.trans drained⟩
    rw [slots] at member
    rcases List.mem_cons.mp member with rfl | member
    · exact Progress.le_refl _
    · exact Slot.progress_le_of_before ((List.pairwise_cons.mp ordered).1 slot member)

theorem Above.publishes (above : q.Above p) : ∃ x, q.progress? = some x ∧ p ≤ x := by
  rw [progress?]
  cases slots : q.slots with
  | nil => exact above.results slots
  | cons first rest =>
    exact ⟨first.progress, rfl, above.slots first (by rw [slots]; exact List.mem_cons_self)⟩

theorem Above.of_uncached (above : q.Above p) (same : r.uncached = q.uncached) : r.Above p := by
  have slots := slots_of_uncached same
  have furthest : r.uncached.furthest = q.uncached.furthest := congrArg Queue.furthest same
  refine ⟨fun slot member => above.slots slot (slots ▸ member), fun drained => ?_⟩
  obtain ⟨x, found, le⟩ := above.results (slots.symm.trans drained)
  exact ⟨x, furthest.trans found, le⟩

theorem above_push {x : Progress} (slots : ∀ slot ∈ q.slots, p ≤ slot.progress) (le : p ≤ x)
    (entry : Entry) : (q.push entry x).Above p := by
  unfold push
  split
  · refine ⟨slots, fun _ => ⟨_, rfl, ?_⟩⟩
    split
    · unfold Progress.furthest
      split
      · exact le
      next further =>
        rw [← Progress.not_le, Classical.not_not] at further
        exact Progress.le_trans le further
    · exact le
  · have member (slot : Slot) (here : slot ∈ insertSlot ⟨x, q.sequence, entry⟩ q.slots) :
        p ≤ slot.progress := by
      rcases List.mem_cons.mp ((perm_insertSlot _ _).mem_iff.mp here) with rfl | here
      · exact le
      · exact slots slot here
    refine ⟨member, fun drained => ?_⟩
    have length := (perm_insertSlot ⟨x, q.sequence, entry⟩ q.slots).length_eq
    rw [show insertSlot ⟨x, q.sequence, entry⟩ q.slots = [] from drained] at length
    cases length

theorem sequence_le_push (q : Queue α) (entry : Entry) (x : Progress) :
    q.sequence ≤ (q.push entry x).sequence := by
  unfold push
  split
  · exact Nat.le_refl _
  · exact Nat.le_succ _

theorem size_le_push (q : Queue α) (entry : Entry) (x : Progress) :
    q.results.size ≤ (q.push entry x).results.size := by
  unfold push
  split
  · simp only [retire, Array.size_push]
    omega
  · exact Nat.le_refl _

theorem mem_arrivals_push {base : Queue α} (older : base.sequence ≤ q.sequence)
    (fewer : base.results.size ≤ q.results.size) {entry next : Entry} (x : Progress)
    (here : entry = next ∨ entry ∈ base.arrivals q) : entry ∈ base.arrivals (q.push next x) := by
  unfold push
  split
  · simp only [arrivals, retired, retire, Array.toList_push] at here ⊢
    rw [List.drop_append_of_le_length (by simpa using fewer), ← List.append_assoc]
    rcases here with rfl | here
    · exact List.mem_append_right _ List.mem_cons_self
    · exact List.mem_append_left _ here
  · simp only [arrivals, List.mem_append, List.mem_map, List.mem_filter,
      (perm_insertSlot _ q.slots).mem_iff, List.mem_cons, decide_eq_true_eq] at here ⊢
    rcases here with rfl | ⟨slot, ⟨member, later⟩, same⟩ | retired
    · exact .inl ⟨_, ⟨.inl rfl, older⟩, rfl⟩
    · exact .inl ⟨slot, ⟨.inr member, later⟩, same⟩
    · exact .inr retired

/-- Without its first entry a queue stays above what it was, unless it is left empty. -/
theorem Above.behind (above : q.Above p) {slot : Slot} {behind : List Slot}
    (slots : q.slots = slot :: behind)
    (content : r.uncached = ({ q with slots := behind } : Queue α).uncached) :
    r.Above p ∨ q.Vanishes r slot := by
  have left : r.slots = behind := slots_of_uncached content
  have seen : r.uncached.furthest = ({ q with slots := behind } : Queue α).uncached.furthest :=
    congrArg Queue.furthest content
  have furthest : r.furthest = q.furthest := seen
  have kept : r.uncached.results = ({ q with slots := behind } : Queue α).uncached.results :=
    congrArg Queue.results content
  have results : r.results = q.results := kept
  by_cases drained : behind = []
  · subst drained
    by_cases reached : ∃ x, q.furthest = some x ∧ slot.progress ≤ x
    · obtain ⟨x, found, further⟩ := reached
      have le : p ≤ slot.progress := above.slots slot (by rw [slots]; exact List.mem_cons_self)
      refine .inl ⟨fun other member => ?_, fun _ => ?_⟩
      · rw [left] at member
        cases member
      · exact ⟨x, furthest.trans found, Progress.le_trans le further⟩
    · refine .inr ⟨slots, left, results, fun x found => ?_⟩
      rw [← Progress.not_le]
      exact fun further => reached ⟨x, found, further⟩
  · refine .inl ⟨fun other member => above.slots other ?_, fun empty => ?_⟩
    · rw [slots]
      exact List.mem_cons_of_mem _ (left ▸ member)
    · exact absurd (left.symm.trans empty) drained

theorem arrivals_of_uncached {base : Queue α} (same : r.uncached = q.uncached) :
    base.arrivals r = base.arrivals q := by
  have retired : r.uncached.retired = q.uncached.retired := congrArg Queue.retired same
  rw [arrivals, arrivals, slots_of_uncached same, show r.retired = q.retired from retired]

end Queue

namespace Engine

variable {g : Engine α β} {p : Progress}

theorem above_scheduleAll {q : Queue α} {entries : List Entry}
    (slots : ∀ slot ∈ q.slots, p ≤ slot.progress)
    (keepUp : ∀ entry ∈ entries, p ≤ g.domain.progress entry.payload) (some : entries ≠ []) :
    (g.scheduleAll q entries).Above p := by
  -- along the entries; the first one lifts the queue, the others keep it up
  induction entries generalizing q with
  | nil => exact absurd rfl some
  | cons entry rest ih =>
    have lifted : (g.schedule q entry).Above p :=
      Queue.above_push slots (keepUp entry List.mem_cons_self) entry
    by_cases last : rest = []
    · subst last
      exact lifted
    · exact ih lifted.slots (fun other member => keepUp other (List.mem_cons_of_mem _ member)) last

theorem mem_arrivals_scheduleAll {base q : Queue α} (older : base.sequence ≤ q.sequence)
    (fewer : base.results.size ≤ q.results.size) {entries : List Entry} {entry : Entry}
    (come : entry ∈ entries ∨ entry ∈ base.arrivals q) :
    entry ∈ base.arrivals (g.scheduleAll q entries) := by
  induction entries generalizing q with
  | nil => exact come.resolve_left (by simp)
  | cons next rest ih =>
    have older' := Nat.le_trans older (q.sequence_le_push next (g.domain.progress next.payload))
    have fewer' := Nat.le_trans fewer (q.size_le_push next (g.domain.progress next.payload))
    refine ih older' fewer' ?_
    rcases come with here | here
    · rcases List.mem_cons.mp here with rfl | here
      · exact .inr (Queue.mem_arrivals_push older fewer _ (.inl rfl))
      · exact .inl here
    · exact .inr (Queue.mem_arrivals_push older fewer _ (.inr here))

theorem mem_arrivals_of_content {q r : Queue α} {behind : List Slot} {entries : List Entry}
    (content : r.uncached = (g.scheduleAll { q with slots := behind } entries).uncached)
    {entry : Entry} (member : entry ∈ entries) : entry ∈ q.arrivals r := by
  have older : q.sequence ≤ ({ q with slots := behind } : Queue α).sequence := Nat.le_refl _
  rw [Queue.arrivals_of_uncached content]
  exact mem_arrivals_scheduleAll older (Nat.le_refl _) (.inl member)

theorem keepsUp_iff {q r : Queue α} {slot : Slot} {behind : List Slot}
    (slots : q.slots = slot :: behind) :
    g.keepsUp q r = true ↔
      ∀ entry ∈ q.arrivals r, slot.progress ≤ g.domain.progress entry.payload := by
  rw [keepsUp, slots]
  simp only [List.head?_cons, Option.all_some, List.all_eq_true, decide_eq_true_eq]

theorem Turns.above {program : Program} {q r : Queue α} (turns : g.Turns program q r)
    (keepsUp : g.keepsUp q r = true) (above : q.Above p) :
    r.Above p ∨ ∃ slot, q.Vanishes r slot := by
  obtain ⟨slots, pending, evaluated, content⟩ := turns
  rename_i slot behind node rest depth w step after
  by_cases none : followers slot.entry rest step after = []
  · rw [none] at content
    exact (above.behind slots content).imp_right fun vanishes => ⟨slot, vanishes⟩
  · have le : p ≤ slot.progress := above.slots slot (by rw [slots]; exact List.mem_cons_self)
    have kept (other : Slot) (member : other ∈ behind) : p ≤ other.progress :=
      above.slots other (by rw [slots]; exact List.mem_cons_of_mem _ member)
    refine .inl (Queue.Above.of_uncached (above_scheduleAll kept (fun entry member => ?_) none)
      content)
    exact Progress.le_trans le
      ((keepsUp_iff slots).mp keepsUp entry (mem_arrivals_of_content content member))

/-- A run that ends with its last entry in flight vanishing. -/
def Fades (outcomes : List (Except EvalError (Queue α))) : Prop :=
  ∃ earlier q r slot, outcomes = earlier ++ [.ok q, .ok r] ∧ q.Vanishes r slot

theorem Course.publishes {program : Program} {q : Queue α}
    {outcomes : List (Except EvalError (Queue α))} {reports : List (Report β)}
    (course : g.Course program q outcomes reports) (moves : g.movesOn (.ok q :: outcomes) = true)
    (above : q.Above p) : ∀ b ∈ reports,
      (∃ x, b.current = some x ∧ p ≤ x) ∨ b.isFinal = true ∧ Fades (.ok q :: outcomes) := by
  induction course with
  | stop q =>
    intro b member
    cases member
  | failed work error =>
    intro b member
    cases member
  | @turned q r outcomes reports turns later ih =>
    intro b member
    rw [movesOn, Bool.and_eq_true] at moves
    rcases turns.above moves.1 above with above' | ⟨slot, vanishes⟩
    · rcases ih moves.2 above' b member with ahead | ⟨final, earlier, q', r', slot, split, vanishes⟩
      · exact .inl ahead
      · refine .inr ⟨final, .ok q :: earlier, q', r', slot, ?_, vanishes⟩
        rw [split, List.cons_append]
    · obtain ⟨rfl, final⟩ := later.of_drained vanishes.drained
      exact .inr ⟨final b member, [], q, r, slot, rfl, vanishes⟩
  | reported current isFinal later ih =>
    intro b member
    rcases List.mem_cons.mp member with rfl | member
    · rw [current]
      exact .inl above.publishes
    · exact ih moves above b member

theorem Course.noLess {program : Program} {q : Queue α}
    {outcomes : List (Except EvalError (Queue α))} {reports : List (Report β)}
    (course : g.Course program q outcomes reports) (kept : q.Kept)
    (moves : g.movesOn (.ok q :: outcomes) = true) :
    reports.Pairwise fun a b => a.NoLess b ∨ b.isFinal = true ∧ Fades (.ok q :: outcomes) := by
  induction course with
  | stop q => exact .nil
  | failed work error => exact .nil
  | @turned q r outcomes reports turns later ih =>
    rw [movesOn, Bool.and_eq_true] at moves
    refine (ih (turns.kept kept) moves.2).imp fun ahead => ahead.imp id fun ⟨final, fades⟩ => ?_
    obtain ⟨earlier, q', r', slot, split, vanishes⟩ := fades
    refine ⟨final, .ok q :: earlier, q', r', slot, ?_, vanishes⟩
    rw [split, List.cons_append]
  | @reported q outcomes report reports current isFinal later ih =>
    refine List.pairwise_cons.mpr ⟨fun b member => ?_, ih kept moves⟩
    by_cases fades : b.isFinal = true ∧ Fades (.ok q :: outcomes)
    · exact .inr fades
    · refine .inl fun p published => ?_
      rw [current] at published
      exact (later.publishes moves (kept.above published) b member).resolve_right fades

end Engine

namespace Interpreter

/-- In a run that moves on every report publishes no less progress than those before it, unless the
run ends with its last entry in flight vanishing. -/
theorem history_noLess {g : Engine α β} (steady : g.operations.Steady)
    (publishes : ∀ q, (g.domain.publish q).2.uncached = q.uncached) {i : Interpreter α β}
    (own : i.engine = g) (fuel : Nat) (program : Program) (requested : Progress)
    (calls : List Control)
    (moves : g.movesOn (i.history fuel program requested calls).outcomes = true) :
    (i.history fuel program requested calls).reports.Pairwise fun a b =>
      a.NoLess b ∨
        b.isFinal = true ∧ Engine.Fades (i.history fuel program requested calls).outcomes := by
  rcases history_course steady publishes own fuel program requested calls with
    refused | ⟨error, failed⟩ | ⟨seeded, outcomes, reports, _, history, kept, course⟩
  · rw [refused]
    exact .nil
  · rw [failed]
    exact .nil
  · rw [history] at moves ⊢
    exact course.noLess kept moves

end Interpreter

namespace Scene

theorem stepwise_noLess :
    (engine {} ⟨0⟩).movesOn stepwise.outcomes = true ∧
      stepwise.reports.Pairwise fun a b =>
        a.NoLess b ∨ b.isFinal = true ∧ Engine.Fades stepwise.outcomes := by
  have moves : (engine {} ⟨0⟩).movesOn stepwise.outcomes = true := by decide +kernel
  exact ⟨moves, Interpreter.history_noLess (engine_steady {} ⟨0⟩) (uncached_publish {} ⟨0⟩)
    (Eq.refl (Interpreter.scene {} ⟨0⟩).engine) 10 waiting 10 _ moves⟩

/-- A pedestrian who stays, and one who waits for one second and then splits into nobody. -/
def vanishing : Program := .ofList [
  ("staying", {
    initialVariables := .empty
    nouns := .ofList [("stay", ⟨"stay", .this "here"⟩)]
    root := "stay" }),
  ("leaving", {
    initialVariables := .empty
    nouns := .ofList [("leave", ⟨"leave", .sequential "all" [
      .operation "pause" "wait" [.literal "one" (.number 1)],
      .operation "gone" "clone" [.literal "none" (.number 0)]]⟩)]
    root := "leave" })]

def vanished : History Network Snapshot :=
  (Interpreter.scene {} ⟨0⟩).history 10 vanishing 1000 [.resume ⟨1⟩, .resume ⟨2⟩, .resume ⟨3⟩]

/-- Every evaluation keeps up, and still the final report publishes less than the one before it. -/
theorem vanished_falls_back :
    (engine {} ⟨0⟩).movesOn vanished.outcomes = true ∧
      ¬vanished.reports.Pairwise fun a b => a.NoLess b := by
  decide +kernel

end Scene
end ProceduralScene
