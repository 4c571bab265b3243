import ProceduralScene.Proofs.Interpreter.Descent
import ProceduralScene.Proofs.Interpreter.History
import ProceduralScene.Proofs.Queue.Ledger

/-! The course of a run. Turns of the first entry, one after another, and reports of where the run
has come to in between: whatever calls continue a run, and however they cut it into slices, its
history is such a course. -/
namespace ProceduralScene

open Evaluation

variable {α β : Type}

namespace Queue

section
variable {q r : Queue α} (same : q.uncached = r.uncached)

include same

theorem slots_of_uncached : q.slots = r.slots := by
  have seen : q.uncached.slots = r.uncached.slots := congrArg slots same
  exact seen

theorem progress?_of_uncached : q.progress? = r.progress? := by
  have seen : q.uncached.progress? = r.uncached.progress? := congrArg progress? same
  exact seen

theorem hasWork_of_uncached : q.hasWork = r.hasWork := by
  rw [hasWork, hasWork, slots_of_uncached same]

end

/-- A queue that has come about by pushes and pops. -/
def Kept (q : Queue α) : Prop := ∃ ledger numbered, q.Keeps ledger numbered

theorem Kept.of_uncached {q r : Queue α} (kept : q.Kept) (same : r.uncached = q.uncached) :
    r.Kept := by
  obtain ⟨ledger, numbered, keeps⟩ := kept
  exact ⟨ledger, numbered, keeps.of_uncached same⟩

theorem Kept.push {q : Queue α} (kept : q.Kept) (entry : Entry) (progress : Progress) :
    (q.push entry progress).Kept := by
  obtain ⟨ledger, numbered, keeps⟩ := kept
  exact ⟨_, keeps.push entry progress⟩

theorem Kept.behind {q : Queue α} (kept : q.Kept) {slot : Slot} {behind : List Slot}
    (slots : q.slots = slot :: behind) : ({ q with slots := behind } : Queue α).Kept := by
  obtain ⟨ledger, numbered, keeps⟩ := kept
  have popped := keeps.pop
  rw [pop, slots] at popped
  exact ⟨_, popped⟩

theorem Kept.unfinished {q : Queue α} (kept : q.Kept) {entry : Entry}
    (waits : entry ∈ q.inFlight) : entry.pending ≠ [] := by
  obtain ⟨ledger, numbered, keeps⟩ := kept
  exact keeps.serves.unfinished entry waits

theorem Kept.finished {q : Queue α} (kept : q.Kept) {entry : Entry} (done : entry ∈ q.retired) :
    entry.pending = [] := by
  obtain ⟨ledger, numbered, keeps⟩ := kept
  exact keeps.serves.finished entry done

end Queue

namespace Engine

variable (g : Engine α β) (program : Program)

/-- The next node of the first entry is evaluated, and the entries that follow are scheduled. -/
inductive Turns (q r : Queue α) : Prop where
  | turn {slot : Slot} {behind : List Slot} {node : Transformation} {rest : List Transformation}
    {depth : Nat} {w : World α} {step : Step} {after : Scope α}
    (slots : q.slots = slot :: behind) (pending : slot.entry.pending = node :: rest)
    (evaluated : g.evaluated depth program w slot.entry node = (.ok step, after))
    (content : r.uncached = (g.scheduleAll { q with slots := behind }
      (followers slot.entry rest step after)).uncached)

/-- The outcomes and reports of a run from a queue on. -/
inductive Course : Queue α → List (Except EvalError (Queue α)) → List (Report β) → Prop where
  | stop (q : Queue α) : Course q [] []
  | failed {q : Queue α} (work : q.hasWork = true) (error : EvalError) :
    Course q [.error error] []
  | turned {q r : Queue α} {outcomes : List (Except EvalError (Queue α))}
    {reports : List (Report β)} (turns : g.Turns program q r)
    (later : Course r outcomes reports) : Course q (.ok r :: outcomes) reports
  | reported {q : Queue α} {outcomes : List (Except EvalError (Queue α))} {report : Report β}
    {reports : List (Report β)} (current : report.current = q.progress?)
    (isFinal : report.isFinal = !q.hasWork) (later : Course q outcomes reports) :
    Course q outcomes (report :: reports)

variable {g program}

theorem Course.of_drained {q : Queue α}
    {outcomes : List (Except EvalError (Queue α))} {reports : List (Report β)}
    (course : g.Course program q outcomes reports) (drained : q.slots = []) :
    outcomes = [] ∧ ∀ report ∈ reports, report.isFinal = true := by
  have idle : q.hasWork = false := by rw [Queue.hasWork, drained]; rfl
  induction course with
  | stop q => exact ⟨rfl, fun report member => by cases member⟩
  | failed work error => cases idle.symm.trans work
  | turned turns later ih =>
    obtain ⟨slots, _, _, _⟩ := turns
    cases drained.symm.trans slots
  | reported current isFinal later ih =>
    obtain ⟨none, final⟩ := ih drained idle
    refine ⟨none, fun report member => ?_⟩
    rcases List.mem_cons.mp member with rfl | member
    · rw [isFinal, idle]
      rfl
    · exact final report member

theorem uncached_scheduleAll (q : Queue α) (entries : List Entry) :
    (g.scheduleAll q entries).uncached = g.scheduleAll q.uncached entries := by
  induction entries generalizing q with
  | nil => rfl
  | cons entry rest ih =>
    refine (ih (g.schedule q entry)).trans ?_
    rw [schedule, Queue.uncached_push]
    rfl

theorem kept_scheduleAll {q : Queue α} (kept : q.Kept) (entries : List Entry) :
    (g.scheduleAll q entries).Kept := by
  induction entries generalizing q with
  | nil => exact kept
  | cons entry rest ih => exact ih (kept.push entry _)

theorem Turns.kept {q r : Queue α} (turns : g.Turns program q r) (kept : q.Kept) : r.Kept := by
  obtain ⟨slots, _, _, content⟩ := turns
  exact (kept_scheduleAll (kept.behind slots) _).of_uncached content

theorem kept_seed {ordinal : Nat} {descriptions : List (String × Description)} {q : Queue α}
    (kept : q.Kept) : (g.seed ordinal descriptions q).2.Kept := by
  induction descriptions generalizing ordinal q with
  | nil => exact kept
  | cons description rest ih =>
    unfold seed
    split
    · exact kept
    · exact ih kept
    · exact ih (kept.push _ _)

section
variable (steady : g.operations.Steady)

include steady

/-- All that an advance of a queue with work does to the queue. -/
theorem advance_inversion {depth : Nat} {w next : World α} (kept : w.queue.Kept)
    (work : w.queue.hasWork = true)
    (advanced : g.advance depth program w = (.ok (), next)) :
    ∃ slot behind node rest step after, w.queue.slots = slot :: behind ∧
      slot.entry.pending = node :: rest ∧
      g.evaluated depth program { w with queue := { w.queue with slots := behind } } slot.entry
        node = (.ok step, after) ∧
      next.queue.uncached = (g.scheduleAll { w.queue with slots := behind }
        (followers slot.entry rest step after)).uncached := by
  cases slots : w.queue.slots with
  | nil =>
    rw [Queue.hasWork, slots] at work
    cases work
  | cons slot behind =>
    have popped : w.queue.pop = some (slot.entry, { w.queue with slots := behind }) := by
      rw [Queue.pop, slots]
    have unfinished : slot.entry.pending ≠ [] :=
      kept.unfinished (List.mem_map.mpr ⟨slot, by rw [slots]; exact List.mem_cons_self, rfl⟩)
    cases pending : slot.entry.pending with
    | nil => exact absurd pending unfinished
    | cons node rest =>
      rw [advance_of_pop g popped pending] at advanced
      rcases evaluated : g.evaluated depth program
        { w with queue := { w.queue with slots := behind } } slot.entry node with ⟨_ | step, after⟩
      · rw [evaluated] at advanced
        cases advanced
      · rw [evaluated] at advanced
        cases advanced
        have left := evaluated_steady steady evaluated fun exhausted => by cases exhausted
        refine ⟨slot, behind, node, rest, step, after, rfl, pending, evaluated, ?_⟩
        simp only [settled]
        rw [uncached_scheduleAll, left, ← uncached_scheduleAll]

theorem advance_turns {depth : Nat} {w next : World α} {q : Queue α} (kept : q.Kept)
    (same : q.uncached = w.queue.uncached) (work : w.queue.hasWork = true)
    (advanced : g.advance depth program w = (.ok (), next)) : g.Turns program q next.queue := by
  obtain ⟨slot, behind, node, rest, step, after, slots, pending, evaluated, content⟩ :=
    advance_inversion steady (kept.of_uncached same.symm) work advanced
  refine .turn ((Queue.slots_of_uncached same).trans slots) pending evaluated ?_
  have left : ({ w.queue with slots := behind } : Queue α).uncached =
      ({ q with slots := behind } : Queue α).uncached := by
    have cut := congrArg (fun r : Queue α => { r with slots := behind }) same
    exact cut.symm
  rw [content, uncached_scheduleAll, left, ← uncached_scheduleAll]

theorem slice_course (depth : Nat) (span : Span) (fuel : Nat) {w : World α}
    {q : Queue α} (kept : q.Kept) (same : q.uncached = w.queue.uncached) (steps : Nat) :
    g.Course program q (g.evaluations depth program span fuel steps w) [] ∧
      ∀ k after, g.slice depth program span fuel steps w = (.ok k, after) →
        ∃ r, r.Kept ∧ r.uncached = after.queue.uncached ∧ ∀ outcomes reports,
          g.Course program r outcomes reports →
            g.Course program q (g.evaluations depth program span fuel steps w ++ outcomes)
              reports := by
  induction fuel generalizing w q steps with
  | zero =>
    refine ⟨.stop q, fun k after answered => ?_⟩
    cases answered
  | succ fuel ih =>
    unfold evaluations slice
    split
    · refine ⟨.stop q, fun k after answered => ?_⟩
      cases answered
      exact ⟨q, kept, same, fun outcomes reports later => later⟩
    next running =>
      have work : w.queue.hasWork = true := hasWork_of_running running
      rcases advanced : g.advance depth program w with ⟨(error | _) | _, next⟩
      · refine ⟨.failed ?_ error, fun k after answered => ?_⟩
        · exact (Queue.hasWork_of_uncached same).trans work
        · cases answered
      · refine ⟨.stop q, fun k after answered => ?_⟩
        cases answered
      · have turns := advance_turns steady kept same work advanced
        obtain ⟨course, answers⟩ := ih (turns.kept kept) rfl (steps + 1)
        refine ⟨.turned turns course, fun k after answered => ?_⟩
        obtain ⟨r, kept', same', goesOn⟩ := answers k after answered
        exact ⟨r, kept', same', fun outcomes reports later =>
          .turned turns (goesOn outcomes reports later)⟩

end
end Engine

namespace Interpreter

variable {g : Engine α β} {program : Program} {i : Interpreter α β} {q : Queue α}

section
variable (steady : g.operations.Steady)
  (publishes : ∀ q, (g.domain.publish q).2.uncached = q.uncached)

include steady publishes

theorem run_course (own : i.engine = g) (kept : q.Kept) (same : q.uncached = i.queue.uncached)
    (fuel : Nat) :
    g.Course program q (i.evaluations fuel program) [] ∧
      ∀ report next, i.run fuel program = (.ok report, next) →
        next.engine = g ∧ next.program = i.program ∧
          ∃ r, r.Kept ∧ r.uncached = next.queue.uncached ∧ ∀ outcomes reports,
            g.Course program r outcomes reports →
              g.Course program q (i.evaluations fuel program ++ outcomes)
                (report :: reports) := by
  subst own
  obtain ⟨course, answers⟩ := Engine.slice_course steady fuel i.span fuel kept same 0
  refine ⟨course, fun report next ran => ?_⟩
  dsimp only [run] at ran
  rcases sliced : i.engine.slice fuel program i.span fuel 0 i.world with
    ⟨(error | _) | steps, after⟩
  · rw [sliced] at ran
    cases ran
  · rw [sliced] at ran
    cases ran
  · rw [sliced] at ran
    obtain ⟨r, kept', same', goesOn⟩ := answers steps after sliced
    have shown : r.uncached = (i.engine.domain.publish after.queue).2.uncached :=
      same'.trans (publishes after.queue).symm
    cases ran
    refine ⟨rfl, rfl, r, kept', shown, fun outcomes reports later => ?_⟩
    refine goesOn outcomes _ (.reported ?_ ?_ later)
    · exact (Queue.progress?_of_uncached shown).symm
    · exact congrArg (!·) (Queue.hasWork_of_uncached shown).symm

theorem precede_course (own : i.engine = g) (kept : q.Kept)
    (same : q.uncached = i.queue.uncached) (fuel : Nat)
    {later : Interpreter α β → History α β}
    (follows : ∀ next r, next.engine = g → next.program = i.program → Queue.Kept r →
      r.uncached = next.queue.uncached →
        g.Course program r (later next).outcomes (later next).reports) :
    g.Course program q
      (precede (i.evaluations fuel program)
        (some (i.run fuel program).1, (i.run fuel program).2) later).outcomes
      (precede (i.evaluations fuel program)
        (some (i.run fuel program).1, (i.run fuel program).2) later).reports := by
  obtain ⟨course, answers⟩ := run_course steady publishes own kept same fuel
  rcases ran : i.run fuel program with ⟨fault | report, next⟩
  · exact course
  · obtain ⟨own', known, r, kept', same', goesOn⟩ := answers report next ran
    exact goesOn _ _ (follows next r own' known kept' same')

theorem continued_course (fuel : Nat) (calls : List Control) (own : i.engine = g)
    (known : i.program = some program) (kept : q.Kept) (same : q.uncached = i.queue.uncached) :
    g.Course program q (i.continued fuel calls).outcomes (i.continued fuel calls).reports := by
  induction calls generalizing i q with
  | nil => exact .stop q
  | cons call calls ih =>
    unfold continued
    cases entering : i.enter? call with
    | none =>
      obtain ⟨world, engine, unchanged⟩ := enter?_none entering fuel
      refine ih (engine.trans own) (unchanged.trans known) kept ?_
      rw [queue, world]
      exact same
    | some entered =>
      obtain ⟨entered, program'⟩ := entered
      obtain ⟨world, engine, unchanged, known'⟩ := enter?_some entering
      cases known'.symm.trans known
      dsimp only
      rw [control_of_enter? entering]
      refine precede_course steady publishes (engine.trans own) kept ?_ fuel ?_
      · rw [queue, world]
        exact same
      · intro next r own' known'' kept' same'
        exact ih own' (known''.trans (unchanged.trans known)) kept' same'

/-- A run that is not refused fails at its seeding, or takes its course from there. -/
theorem history_course (own : i.engine = g) (fuel : Nat) (program : Program)
    (requested : Progress) (calls : List Control) :
    i.history fuel program requested calls = {} ∨
      (∃ error, i.history fuel program requested calls = ⟨[.error error], []⟩) ∨
        ∃ seeded outcomes reports, g.seed 0 program.entries .empty = (.ok (), seeded) ∧
          i.history fuel program requested calls = ⟨.ok seeded :: outcomes, reports⟩ ∧
            seeded.Kept ∧ g.Course program seeded outcomes reports := by
  subst own
  unfold history
  split
  · exact .inl rfl
  next idle =>
    refine .inr ?_
    have kept : (i.engine.seed 0 program.entries .empty).2.Kept :=
      Engine.kept_seed ⟨_, _, Queue.keeps_empty⟩
    rcases seeding : i.engine.seed 0 program.entries .empty with ⟨error | _, seeded⟩
    · refine .inl ⟨error, ?_⟩
      simp only [Interpreter.seeded, seeding]
    · rw [seeding] at kept
      have ok : i.seeded program requested = (.ok (), (i.seeded program requested).2) := by
        simp only [Interpreter.seeded, seeding]
      have start : (i.seeded program requested).2.queue = seeded := by
        simp only [Interpreter.seeded, seeding]
        rfl
      have course : i.engine.Course program seeded _ _ := precede_course steady publishes
        (show (i.seeded program requested).2.engine = i.engine from rfl) kept (by rw [start]) fuel
        fun next r own known kept' same => continued_course steady publishes fuel calls own known
          kept' same
      refine .inr ⟨seeded, _, _, rfl, ?_, kept, course⟩
      rw [ok]
      dsimp only
      rw [begin_of_seeded (Bool.not_eq_true _ ▸ idle) ok, precede_cons, start]

end
end Interpreter
end ProceduralScene
